import FlowGraph.Proofs.Resolution

/-!
# Calls of the standard library

Whatever the arguments are, a call comes to one answer: their number is wrong, one of them has a wrong type, there
is no quotient, or there is a value of the type the signature has for it. A native is called only with arguments
of its own types, so that it reads nothing that is not there.
-/

namespace FlowGraph

namespace Library

def reduced (z : Int) : Value := .int (Int64.ofInt z)

def ofIntegers (x y : Int) : List (String × Value) :=
  [ ("+", reduced (x + y)), ("-", reduced (x - y)), ("*", reduced (x * y)), ("/", reduced (x.tdiv y)),
    ("<", .bool (x < y)), (">", .bool (y < x)), ("<=", .bool (x ≤ y)), (">=", .bool (y ≤ x)), ("==", .bool (x = y)),
    ("!=", .bool (x ≠ y)), ("=", reduced y), ("min", reduced (min x y)), ("max", reduced (max x y)) ]

def ofDoubles (x y : Double) : List (String × Value) :=
  [ ("+", .double (x.add y)), ("-", .double (x.sub y)), ("*", .double (x.mul y)), ("/", .double (x.div y)),
    ("<", .bool (x.less y)), (">", .bool (y.less x)), ("<=", .bool (x.lessEq y)), (">=", .bool (y.lessEq x)),
    ("=", .double y) ]

def ofBools (x y : Bool) : List (String × Value) :=
  [ ("==", .bool (x = y)), ("!=", .bool (x ≠ y)), ("&&", .bool (x ∧ y)), ("||", .bool (x ∨ y)), ("=", .bool y) ]

def ofInteger (x : Int) : List (String × Value) := [("-", reduced (-x)), ("abs", reduced x.natAbs)]

def ofDouble (x : Double) : List (String × Value) := [("-", .double x.neg), ("abs", .double x.abs)]

def ofBool (x : Bool) : List (String × Value) := [("!", .bool !x), ("not", .bool !x)]

def meanings : List Value → List (String × Value)
  | [.int a, .int b] => ofIntegers a.toInt b.toInt
  | [.double a, .double b] => ofDoubles a b
  | [.bool a, .bool b] => ofBools a b
  | [.int a] => ofInteger a.toInt
  | [.double a] => ofDouble a
  | [.bool a] => ofBool a
  | _ => []

def HasQuotient (a b : Int64) : Prop := b ≠ 0 ∧ ∃ q : Int64, q.toInt = a.toInt.tdiv b.toInt

theorem hasQuotient_iff {a b : Int64} : HasQuotient a b ↔ ¬(b = 0 ∨ a = Int64.minValue ∧ b = -1) := by
  rw [not_or]
  refine and_congr_right fun hb => ⟨?_, fun h => ⟨a / b, ?_⟩⟩
  · rintro ⟨q, hq⟩ ⟨rfl, rfl⟩
    have hlt := q.toInt_lt
    rw [hq] at hlt
    exact absurd hlt (by decide)
  · by_cases ha : a = Int64.minValue
    · exact Int64.toInt_div_of_ne_right a b fun hone => h ⟨ha, hone⟩
    · exact Int64.toInt_div_of_ne_left a b ha

end Library

namespace Function

open Library

variable {f : Function} {args : List Value} {v : Value} {r : Except CallError Value} {i : Nat} {t u : ValueType}

/-- A division of integers that have no quotient. -/
def UndefinedQuotient (f : Function) (args : List Value) : Prop :=
  f.signature.name = "/" ∧ ∃ a b, args = [.int a, .int b] ∧ ¬HasQuotient a b

structure NativeAnswer (f : Function) (args : List Value) : Prop where
  fails : f.UndefinedQuotient args → f.native args = .error .divisionByZero
  yields : ¬f.UndefinedQuotient args → ∃ v, f.native args = .ok v ∧ v.type = f.signature.result ∧
    (meanings args).lookup f.signature.name = some v
  own : ∀ more, f.native (args ++ more) = f.native args

def NativeSound (f : Function) : Prop := ∀ args, args.map Value.type = f.signature.types → f.NativeAnswer args

structure Mistyped (f : Function) (args : List Value) (i : Nat) (t u : ValueType) : Prop where
  expected : f.signature.types[i]? = some t
  found : (args.map Value.type)[i]? = some u
  differ : t ≠ u
  first : ∀ j < i, f.signature.types[j]? = (args.map Value.type)[j]?

/-- The answer that a call with these arguments is to have. -/
inductive Outcome (f : Function) (args : List Value) : Except CallError Value → Prop
  | arity : args.length ≠ f.signature.arity → Outcome f args (.error (.arity f.signature.arity args.length))
  | type {i : Nat} {t u : ValueType} : args.length = f.signature.arity → f.Mistyped args i t u →
      Outcome f args (.error (.type i t u))
  | divisionByZero : args.map Value.type = f.signature.types → f.UndefinedQuotient args →
      Outcome f args (.error .divisionByZero)
  | value {v : Value} : args.map Value.type = f.signature.types → ¬f.UndefinedQuotient args →
      v.type = f.signature.result →
      (meanings args).lookup f.signature.name = some v → Outcome f args (.ok v)

theorem NativeAnswer.of_ok (hdef : ¬f.UndefinedQuotient args) (hok : ∀ more, f.native (args ++ more) = .ok v)
    (htype : v.type = f.signature.result) (hmeans : (meanings args).lookup f.signature.name = some v) :
    f.NativeAnswer args := by
  have hplain : f.native args = .ok v := by
    have h := hok []
    rwa [List.append_nil] at h
  exact ⟨fun h => (hdef h).elim, fun _ => ⟨v, hplain, htype, hmeans⟩, fun more => (hok more).trans hplain.symm⟩

theorem eq_pair (h : args.map Value.type = [t, u]) : ∃ x y, args = [x, y] ∧ x.type = t ∧ y.type = u := by
  obtain ⟨x, rest, rfl, hx, hrest⟩ := List.map_eq_cons_iff.1 h
  obtain ⟨y, rest, rfl, hy, hnil⟩ := List.map_eq_cons_iff.1 hrest
  obtain rfl := List.map_eq_nil_iff.1 hnil
  exact ⟨x, y, rfl, hx, hy⟩

theorem eq_single (h : args.map Value.type = [t]) : ∃ x, args = [x] ∧ x.type = t := by
  obtain ⟨x, rest, rfl, hx, hnil⟩ := List.map_eq_cons_iff.1 h
  obtain rfl := List.map_eq_nil_iff.1 hnil
  exact ⟨x, rfl, hx⟩

end Function

namespace Value

theorem eq_int {v : Value} (h : v.type = .int) : ∃ i, v = .int i := by
  cases v <;> cases h
  exact ⟨_, rfl⟩

theorem eq_double {v : Value} (h : v.type = .double) : ∃ d, v = .double d := by
  cases v <;> cases h
  exact ⟨_, rfl⟩

theorem eq_bool {v : Value} (h : v.type = .bool) : ∃ b, v = .bool b := by
  cases v <;> cases h
  exact ⟨_, rfl⟩

end Value

open FlowGraph.Function

namespace Library

variable {name : String} {result : ValueType}

theorem nativeSound_onInts {op : Int64 → Int64 → Value} (hname : name ≠ "/")
    (hop : ∀ a b, (op a b).type = result ∧ (ofIntegers a.toInt b.toInt).lookup name = some (op a b)) :
    (binary name .int result (Native.onInts op)).NativeSound := by
  intro args hargs
  obtain ⟨x, y, rfl, hx, hy⟩ := eq_pair hargs
  obtain ⟨a, rfl⟩ := Value.eq_int hx
  obtain ⟨b, rfl⟩ := Value.eq_int hy
  exact .of_ok (fun h => hname h.1) (fun _ => rfl) (hop a b).1 (hop a b).2

theorem not_undefinedQuotient {f : Function} {args : List Value} {v : Value} (hv : args.head? = some v)
    (hne : v.type ≠ .int) :
    ¬f.UndefinedQuotient args := by
  rintro ⟨-, a, b, rfl, -⟩
  cases hv
  exact hne rfl

theorem nativeSound_onDoubles {op : Double → Double → Value} (hop : ∀ a b, (op a b).type = result ∧
    (ofDoubles a b).lookup name = some (op a b)) : (binary name .double result (Native.onDoubles op)).NativeSound := by
  intro args hargs
  obtain ⟨x, y, rfl, hx, hy⟩ := eq_pair hargs
  obtain ⟨a, rfl⟩ := Value.eq_double hx
  obtain ⟨b, rfl⟩ := Value.eq_double hy
  exact .of_ok (not_undefinedQuotient rfl ValueType.noConfusion) (fun _ => rfl) (hop a b).1 (hop a b).2

theorem nativeSound_onBools {op : Bool → Bool → Bool} (hop : ∀ a b, (ofBools a b).lookup name = some (.bool (op a b))) :
    (binary name .bool .bool (Native.onBools op)).NativeSound := by
  intro args hargs
  obtain ⟨x, y, rfl, hx, hy⟩ := eq_pair hargs
  obtain ⟨a, rfl⟩ := Value.eq_bool hx
  obtain ⟨b, rfl⟩ := Value.eq_bool hy
  exact .of_ok (not_undefinedQuotient rfl ValueType.noConfusion) (fun _ => rfl) rfl (hop a b)

theorem nativeSound_unaryInt (op : Int64 → Int64) (hname : name ≠ "/")
    (hop : ∀ a, (ofInteger a.toInt).lookup name = some (.int (op a))) :
    (unary name .int fun args => .ok (.int (op (Native.int args 0)))).NativeSound := by
  intro args hargs
  obtain ⟨x, rfl, hx⟩ := eq_single hargs
  obtain ⟨a, rfl⟩ := Value.eq_int hx
  exact .of_ok (fun h => hname h.1) (fun _ => rfl) rfl (hop a)

theorem nativeSound_unaryDouble (op : Double → Double) (hop : ∀ a, (ofDouble a).lookup name = some (.double (op a))) :
    (unary name .double fun args => .ok (.double (op (Native.double args 0)))).NativeSound := by
  intro args hargs
  obtain ⟨x, rfl, hx⟩ := eq_single hargs
  obtain ⟨a, rfl⟩ := Value.eq_double hx
  exact .of_ok (not_undefinedQuotient rfl ValueType.noConfusion) (fun _ => rfl) rfl (hop a)

theorem nativeSound_not (hop : ∀ a, (ofBool a).lookup name = some (.bool !a)) :
    (unary name .bool fun args => .ok (.bool !(Native.bool args 0))).NativeSound := by
  intro args hargs
  obtain ⟨x, rfl, hx⟩ := eq_single hargs
  obtain ⟨a, rfl⟩ := Value.eq_bool hx
  exact .of_ok (not_undefinedQuotient rfl ValueType.noConfusion) (fun _ => rfl) rfl (hop a)

theorem reduced_eq {z : Int} {i : Int64} (h : i.toInt = z.bmod Int64.size) : reduced z = .int i := by
  refine congrArg Value.int (Int64.toInt_inj.1 ?_)
  rw [h]
  exact Int64.toInt_ofInt

theorem reduced_toInt (i : Int64) : reduced i.toInt = .int i := congrArg Value.int (Int64.ofInt_toInt i)

theorem reduced_min (a b : Int64) : reduced (min a.toInt b.toInt) = .int (if b < a then b else a) := by
  by_cases h : b < a
  · rw [if_pos h, min_eq_right (Int64.lt_iff_toInt_lt.1 h).le, reduced_toInt]
  · rw [if_neg h, min_eq_left (not_lt.1 fun hlt => h (Int64.lt_iff_toInt_lt.2 hlt)), reduced_toInt]

theorem reduced_max (a b : Int64) : reduced (max a.toInt b.toInt) = .int (if a < b then b else a) := by
  by_cases h : a < b
  · rw [if_pos h, max_eq_right (Int64.lt_iff_toInt_lt.1 h).le, reduced_toInt]
  · rw [if_neg h, max_eq_left (not_lt.1 fun hlt => h (Int64.lt_iff_toInt_lt.2 hlt)), reduced_toInt]

theorem reduced_natAbs (a : Int64) : reduced a.toInt.natAbs = .int a.abs := by
  have habs : a.abs = if a.toInt < 0 then -a else a := by
    rw [← Int64.toBitVec_inj, Int64.toBitVec_abs, BitVec.abs_eq, BitVec.msb_eq_toInt]
    change (if decide (a.toInt < 0) = true then -a.toBitVec else a.toBitVec) = _
    by_cases h : a.toInt < 0
    · rw [if_pos h, if_pos (decide_eq_true h), Int64.toBitVec_neg]
    · rw [if_neg h, if_neg (mt of_decide_eq_true h)]
  by_cases h : a.toInt < 0
  · rw [habs, if_pos h, Int.ofNat_natAbs_of_nonpos h.le]
    exact reduced_eq (Int64.toInt_neg a)
  · rw [habs, if_neg h, Int.natAbs_of_nonneg (not_lt.1 h)]
    exact reduced_toInt a

theorem nativeSound_divide : (binary "/" .int .int Native.divide).NativeSound := by
  intro args hargs
  obtain ⟨x, y, rfl, hx, hy⟩ := eq_pair hargs
  obtain ⟨a, rfl⟩ := Value.eq_int hx
  obtain ⟨b, rfl⟩ := Value.eq_int hy
  by_cases h : b = 0 ∨ a = Int64.minValue ∧ b = -1
  · refine ⟨fun _ => if_pos h, fun hdef => (hdef ⟨rfl, a, b, rfl, fun hq => hasQuotient_iff.1 hq h⟩).elim, fun _ => rfl⟩
  · have hok : ∀ more, (binary "/" .int .int Native.divide).native ([.int a, .int b] ++ more) = .ok (.int (a / b)) :=
      fun _ => if_neg h
    refine .of_ok ?_ hok rfl (congrArg some (reduced_eq (Int64.toInt_div a b)))
    rintro ⟨-, _, _, hargs, hnone⟩
    cases hargs
    exact hnone (hasQuotient_iff.2 h)

theorem nativeSound_assignment {t : ValueType} (ht : t ≠ .void) : (assignment t).NativeSound := by
  intro args hargs
  obtain ⟨x, y, rfl, hx, hy⟩ := eq_pair hargs
  have hdef : ¬(assignment t).UndefinedQuotient [x, y] := fun h => absurd (show "=" = "/" from h.1) (by decide)
  refine .of_ok hdef (fun _ => rfl) hy ?_
  cases t with
  | void => exact (ht rfl).elim
  | bool =>
    obtain ⟨a, rfl⟩ := Value.eq_bool hx
    obtain ⟨b, rfl⟩ := Value.eq_bool hy
    rfl
  | int =>
    obtain ⟨a, rfl⟩ := Value.eq_int hx
    obtain ⟨b, rfl⟩ := Value.eq_int hy
    exact congrArg some (reduced_toInt b)
  | double =>
    obtain ⟨a, rfl⟩ := Value.eq_double hx
    obtain ⟨b, rfl⟩ := Value.eq_double hy
    rfl

theorem nativeSound_plain {f : Function} (hf : f.NativeSound) : (plain f).NativeSound := fun args hargs =>
  ⟨(hf args hargs).fails, (hf args hargs).yields, (hf args hargs).own⟩

theorem bool_lt (a b : Int64) : Value.bool (a.toInt < b.toInt) = .bool (a < b) :=
  congrArg Value.bool (decide_eq_decide.2 Int64.lt_iff_toInt_lt.symm)

theorem bool_le (a b : Int64) : Value.bool (a.toInt ≤ b.toInt) = .bool (a ≤ b) :=
  congrArg Value.bool (decide_eq_decide.2 Int64.le_iff_toInt_le.symm)

theorem bool_eq (a b : Int64) : Value.bool (a.toInt = b.toInt) = .bool (a == b) :=
  congrArg Value.bool (decide_eq_decide.2 Int64.toInt_inj)

theorem bool_ne (a b : Int64) : Value.bool (a.toInt ≠ b.toInt) = .bool (a != b) :=
  congrArg Value.bool (decide_not.trans (congrArg (! ·) (decide_eq_decide.2 Int64.toInt_inj)))

theorem nativeSound_standard : ∀ f ∈ standardFunctions, f.NativeSound := by
  simp only [standardFunctions, List.forall_mem_cons]
  refine ⟨
    nativeSound_onInts (by decide) fun a b => ⟨rfl, congrArg some (reduced_eq (Int64.toInt_add a b))⟩,
    nativeSound_onInts (by decide) fun a b => ⟨rfl, congrArg some (reduced_eq (Int64.toInt_sub a b))⟩,
    nativeSound_onInts (by decide) fun a b => ⟨rfl, congrArg some (reduced_eq (Int64.toInt_mul a b))⟩,
    nativeSound_onDoubles fun a b => ⟨rfl, rfl⟩, nativeSound_onDoubles fun a b => ⟨rfl, rfl⟩,
    nativeSound_onDoubles fun a b => ⟨rfl, rfl⟩, nativeSound_onDoubles fun a b => ⟨rfl, rfl⟩, nativeSound_divide,
    nativeSound_onInts (by decide) fun a b => ⟨rfl, congrArg some (bool_lt a b)⟩,
    nativeSound_onInts (by decide) fun a b => ⟨rfl, congrArg some (bool_lt b a)⟩,
    nativeSound_onInts (by decide) fun a b => ⟨rfl, congrArg some (bool_le a b)⟩,
    nativeSound_onInts (by decide) fun a b => ⟨rfl, congrArg some (bool_le b a)⟩,
    nativeSound_onInts (by decide) fun a b => ⟨rfl, congrArg some (bool_eq a b)⟩,
    nativeSound_onInts (by decide) fun a b => ⟨rfl, congrArg some (bool_ne a b)⟩,
    nativeSound_onDoubles fun a b => ⟨rfl, rfl⟩, nativeSound_onDoubles fun a b => ⟨rfl, rfl⟩,
    nativeSound_onDoubles fun a b => ⟨rfl, rfl⟩, nativeSound_onDoubles fun a b => ⟨rfl, rfl⟩,
    nativeSound_onBools (by decide), nativeSound_onBools (by decide), nativeSound_onBools (by decide),
    nativeSound_onBools (by decide),
    nativeSound_not fun a => rfl,
    nativeSound_unaryInt (fun a => -a) (by decide) fun a => congrArg some (reduced_eq (Int64.toInt_neg a)),
    nativeSound_unaryDouble Double.neg fun a => rfl,
    nativeSound_assignment ValueType.noConfusion, nativeSound_assignment ValueType.noConfusion,
    nativeSound_assignment ValueType.noConfusion,
    nativeSound_plain (nativeSound_onInts (by decide) fun a b => ⟨rfl, congrArg some (reduced_min a b)⟩),
    nativeSound_plain (nativeSound_onInts (by decide) fun a b => ⟨rfl, congrArg some (reduced_max a b)⟩),
    nativeSound_plain (nativeSound_unaryInt Int64.abs (by decide) fun a => congrArg some (reduced_natAbs a)),
    nativeSound_plain (nativeSound_unaryDouble Double.abs fun a => rfl),
    nativeSound_plain (nativeSound_not fun a => rfl),
    fun f hf => (List.not_mem_nil hf).elim⟩

end Library

namespace Function

variable {f : Function} {as : List Argument} {args : List Value} {r r' : Except CallError Value} {i j k : Nat}
  {t u t' u' : ValueType}

theorem mismatch?_cases (hlength : as.length = args.length) :
    mismatch? k as args = none ∧ args.map Value.type = as.map (·.type) ∨
    ∃ i t u, mismatch? k as args = some (.type (k + i) t u) ∧ (as.map (·.type))[i]? = some t ∧
      (args.map Value.type)[i]? = some u ∧ t ≠ u ∧ ∀ j < i, (as.map (·.type))[j]? = (args.map Value.type)[j]? := by
  induction as generalizing k args with
  | nil =>
    obtain rfl := List.length_eq_zero_iff.1 hlength.symm
    exact .inl ⟨rfl, rfl⟩
  | cons a as ih =>
    obtain ⟨v, vs, rfl⟩ := List.exists_cons_of_length_eq_add_one hlength.symm
    rw [mismatch?]
    by_cases h : a.type = v.type
    · rw [if_pos h]
      rcases ih (Nat.succ.inj hlength) (k := k + 1) with ⟨hnone, hsame⟩ | ⟨i, t, u, hsome, ht, hu, hne, hfirst⟩
      · exact .inl ⟨hnone, congrArg₂ List.cons h.symm hsame⟩
      · refine .inr ⟨i + 1, t, u, ?_, ht, hu, hne, fun j hj => ?_⟩
        · rw [hsome, Nat.add_right_comm, Nat.add_assoc]
        · rcases j with _ | j
          · exact congrArg some h
          · exact hfirst j (Nat.lt_of_succ_lt_succ hj)
    · rw [if_neg h]
      exact .inr ⟨0, _, _, rfl, rfl, rfl, h, fun j hj => (Nat.not_lt_zero j hj).elim⟩

theorem NativeSound.call (hf : f.NativeSound) (args : List Value) : f.Outcome args (f.call args) := by
  rw [Function.call]
  by_cases hlength : f.signature.arguments.length = args.length
  · rw [if_neg (not_not.2 hlength)]
    rcases mismatch?_cases hlength (k := 0) with ⟨hnone, htypes⟩ | ⟨i, t, u, hsome, ht, hu, hne, hfirst⟩
    · rw [hnone]
      have hanswers := hf args htypes
      by_cases hdef : f.UndefinedQuotient args
      · rw [hanswers.fails hdef]
        exact .divisionByZero htypes hdef
      · obtain ⟨v, hv, htype, hmeans⟩ := hanswers.yields hdef
        rw [hv]
        exact .value htypes hdef htype hmeans
    · rw [hsome, Nat.zero_add]
      exact .type hlength.symm ⟨ht, hu, hne, hfirst⟩
  · rw [if_pos hlength]
    exact .arity (Ne.symm hlength)

theorem length_eq_arity (h : args.map Value.type = f.signature.types) : args.length = f.signature.arity := by
  rw [← List.length_map Value.type, h]
  exact List.length_map _

theorem Mistyped.types_ne (h : f.Mistyped args i t u) : args.map Value.type ≠ f.signature.types := by
  intro htypes
  have hfound := h.found
  rw [htypes, h.expected] at hfound
  exact h.differ (Option.some.inj hfound)

theorem Mistyped.le_of (h : f.Mistyped args i t u) (h' : f.Mistyped args j t' u') : i ≤ j := by
  by_contra hlt
  have hsame := h.first j (not_le.1 hlt)
  rw [h'.expected, h'.found] at hsame
  exact h'.differ (Option.some.inj hsame)

theorem Outcome.unique (h : f.Outcome args r) (h' : f.Outcome args r') : r = r' := by
  cases h with
  | arity hlength =>
    cases h' with
    | arity => rfl
    | type hlength' => exact (hlength hlength').elim
    | divisionByZero htypes => exact (hlength (length_eq_arity htypes)).elim
    | value htypes => exact (hlength (length_eq_arity htypes)).elim
  | type hlength hmis =>
    cases h' with
    | arity hlength' => exact (hlength' hlength).elim
    | type _ hmis' =>
      obtain rfl := Nat.le_antisymm (hmis.le_of hmis') (hmis'.le_of hmis)
      cases hmis.expected.symm.trans hmis'.expected
      cases hmis.found.symm.trans hmis'.found
      rfl
    | divisionByZero htypes => exact (hmis.types_ne htypes).elim
    | value htypes => exact (hmis.types_ne htypes).elim
  | divisionByZero htypes hundef =>
    cases h' with
    | arity hlength => exact (hlength (length_eq_arity htypes)).elim
    | type _ hmis => exact (hmis.types_ne htypes).elim
    | divisionByZero => rfl
    | value _ hdef => exact (hdef hundef).elim
  | value htypes hdef _ hmeans =>
    cases h' with
    | arity hlength => exact (hlength (length_eq_arity htypes)).elim
    | type _ hmis => exact (hmis.types_ne htypes).elim
    | divisionByZero _ hundef => exact (hdef hundef).elim
    | value _ _ _ hmeans' =>
      cases hmeans.symm.trans hmeans'
      rfl

end Function

namespace Library

variable {id : FunctionId} {f : Function}

theorem nativeSound_of_get? (hf : standard.get? id = some f) : f.NativeSound := by
  rw [standard, get?_ofList] at hf
  exact nativeSound_standard f (List.mem_of_getElem? hf)

/-- A call of a function of the standard library has an answer, the only one that there can be. With arguments of
its types the native depends on nothing that stands behind them, and there is no quotient when the divisor is zero
or the least integer is divided by minus one. -/
theorem standard_call_outcome (hf : standard.get? id = some f) (args : List Value) :
    (∃ r, standard.call id args = .ok r ∧ f.Outcome args r ∧ ∀ r', f.Outcome args r' → r' = r) ∧
    (args.map Value.type = f.signature.types → ∀ more, f.native (args ++ more) = f.native args) ∧
    (f.UndefinedQuotient args ↔ f.signature.name = "/" ∧ ∃ a b, args = [.int a, .int b] ∧
      (b = 0 ∨ a = Int64.minValue ∧ b = -1)) := by
  have hsound := nativeSound_of_get? hf
  refine ⟨⟨f.call args, ?_, hsound.call args, fun r' hr' => hr'.unique (hsound.call args)⟩,
    fun htypes => (hsound args htypes).own, ?_⟩
  · rw [call, hf]
  · rw [UndefinedQuotient]
    simp only [hasQuotient_iff, not_not]

theorem standard_call_outcome_quotient : ∃ f, standard.get? ⟨7⟩ = some f ∧
    f.Outcome [.int Int64.minValue, .int (-1)] (.error .divisionByZero) ∧
    standard.call ⟨7⟩ [.int Int64.minValue, .int (-1)] = .ok (.error .divisionByZero) := by
  have hf : standard.get? ⟨7⟩ = some (binary "/" .int .int Native.divide) := get?_ofList _ _
  obtain ⟨⟨r, hr, hout, -⟩, -⟩ := standard_call_outcome hf [.int Int64.minValue, .int (-1)]
  have herror : standard.call ⟨7⟩ [.int Int64.minValue, .int (-1)] = .ok (.error .divisionByZero) := by
    rw [call, hf]
    rfl
  cases hr.symm.trans herror
  exact ⟨_, hf, hout, herror⟩

end Library

end FlowGraph
