import FlowGraph.Library.Standard
import Mathlib.Data.List.Find
import Mathlib.Data.List.Induction

/-!
# Resolution

The index by name finds what a scan of all functions would find: the first one registered that has the name and
the argument types. What is registered later changes no answer that there is.
-/

namespace FlowGraph

/-- The function has this name and these argument types. What it returns, and by reference from whom, is
left open. -/
def Function.Overloads (f : Function) (s : Signature) : Prop :=
  f.signature.name = s.name ∧ f.signature.types = s.types

/-- Of the functions that a signature fits, the one at this position was registered first. -/
structure Function.FirstFor (fs : List Function) (s : Signature) (i : Nat) : Prop where
  fits : ∃ f, fs[i]? = some f ∧ f.Overloads s
  first : ∀ j f, j < i → fs[j]? = some f → ¬f.Overloads s

theorem Function.overloads_iff {f : Function} {s : Signature} : f.Overloads s ↔ f.signature.accepts s = true :=
  Signature.accepts_iff.symm

namespace Library

variable {lib : Library} {f : Function} {fs : List Function} {s : Signature} {name : String} {id : FunctionId}

def IndexValid (lib : Library) : Prop := ∀ name, ∀ id ∈ lib.named name, id.index < lib.size

theorem size_add : (lib.add f).size = lib.size + 1 := List.length_append

theorem named_add : (lib.add f).named name =
    if f.signature.name = name then lib.named name ++ [⟨lib.size⟩] else lib.named name := by
  rw [named, add, register, Std.ExtTreeMap.getElem?_insert]
  by_cases h : f.signature.name = name
  · subst h
    simp only [Std.ReflCmp.compare_self, if_true, Option.getD_some]
  · rw [if_neg h, if_neg (mt Std.LawfulEqCmp.eq_of_compare h)]
    rfl

theorem get?_add (h : id.index < lib.size) : (lib.add f).get? id = lib.get? id := List.getElem?_append_left h

theorem get?_add_size : (lib.add f).get? ⟨lib.size⟩ = some f := List.getElem?_concat_length

theorem IndexValid.add (hf : IndexValid lib) : IndexValid (lib.add f) := by
  intro name id hid
  rw [size_add]
  rw [named_add] at hid
  split at hid
  next =>
    rcases List.mem_append.1 hid with hold | hnew
    · exact Nat.lt_succ_of_lt (hf name id hold)
    · obtain rfl := List.mem_singleton.1 hnew
      exact Nat.lt_succ_self _
  next => exact Nat.lt_succ_of_lt (hf name id hid)

theorem find?_add (hf : IndexValid lib) : (lib.add f).find? s =
    (lib.find? s).or (if f.signature.accepts s then some ⟨lib.size⟩ else none) := by
  have hold : ((lib.named s.name).find? fun id => ((lib.add f).get? id).any (·.signature.accepts s)) = lib.find? s :=
    List.find?_congr fun id hid => by rw [get?_add (hf _ id hid)]
  rw [find?, named_add]
  by_cases hname : f.signature.name = s.name
  · rw [if_pos hname, List.find?_append, hold, List.find?_singleton, get?_add_size, Option.any_some]
  · have hnot : ¬f.signature.accepts s = true := fun h => hname (Signature.accepts_iff.1 h).1
    rw [if_neg hname, hold, if_neg hnot, Option.or_none]

theorem isOperator_iff : lib.isOperator name = true ↔
    ∃ id ∈ lib.named name, ∃ f, lib.get? id = some f ∧ f.isOperator = true := by
  rw [isOperator, List.any_eq_true]
  simp only [Option.any_eq_true]

theorem isOperator_add (hf : IndexValid lib) : (lib.add f).isOperator name = true ↔
    lib.isOperator name = true ∨ f.signature.name = name ∧ f.isOperator = true := by
  have hold : (∃ id ∈ lib.named name, ∃ h, (lib.add f).get? id = some h ∧ h.isOperator = true) ↔
      lib.isOperator name = true := by
    rw [isOperator_iff]
    refine exists_congr fun id => and_congr_right fun hid => ?_
    rw [get?_add (hf _ id hid)]
  rw [isOperator_iff, named_add]
  by_cases hname : f.signature.name = name
  · rw [if_pos hname, and_iff_right hname, ← hold]
    simp only [List.mem_append, List.mem_singleton, or_and_right, exists_or, exists_eq_left, get?_add_size,
      Option.some.injEq, exists_eq_left']
  · rw [if_neg hname, hold]
    exact (or_iff_left fun h => hname h.1).symm

theorem ofList_append (later : List Function) : ofList (fs ++ later) = later.foldl add (ofList fs) := List.foldl_append

theorem functions_ofList (fs : List Function) : (ofList fs).functions = fs := by
  induction fs using List.reverseRecOn with
  | nil => rfl
  | append_singleton fs f ih =>
    rw [ofList_append]
    exact congrArg (· ++ [f]) ih

theorem size_ofList (fs : List Function) : (ofList fs).size = fs.length := by rw [size, functions_ofList]

theorem get?_ofList (fs : List Function) (id : FunctionId) : (ofList fs).get? id = fs[id.index]? := by
  rw [get?, functions_ofList]

theorem indexValid_ofList (fs : List Function) : IndexValid (ofList fs) := by
  induction fs using List.reverseRecOn with
  | nil =>
    intro name id hid
    exact absurd hid List.not_mem_nil
  | append_singleton fs f ih =>
    rw [ofList_append]
    exact ih.add

/-- The search through the index is a search through all functions. -/
theorem find?_ofList (fs : List Function) (s : Signature) :
    (ofList fs).find? s = (fs.findIdx? (·.signature.accepts s)).map FunctionId.mk := by
  induction fs using List.reverseRecOn with
  | nil => rfl
  | append_singleton fs f ih =>
    rw [ofList_append]
    change ((ofList fs).add f).find? s = _
    rw [find?_add (indexValid_ofList fs), ih, size_ofList, List.findIdx?_append, List.findIdx?_singleton]
    cases fs.findIdx? (·.signature.accepts s) with
    | some i => rfl
    | none => split <;> simp

theorem isOperator_ofList (fs : List Function) (name : String) :
    (ofList fs).isOperator name = true ↔ ∃ f ∈ fs, f.signature.name = name ∧ f.isOperator = true := by
  induction fs using List.reverseRecOn with
  | nil =>
    refine iff_of_false Bool.false_ne_true fun h => ?_
    obtain ⟨f, hf, -⟩ := h
    exact List.not_mem_nil hf
  | append_singleton fs f ih =>
    rw [ofList_append]
    change ((ofList fs).add f).isOperator name = true ↔ _
    rw [isOperator_add (indexValid_ofList fs), ih]
    simp only [List.mem_append, List.mem_singleton, or_and_right, exists_or, exists_eq_left]

theorem find?_ofList_eq_some_iff : (ofList fs).find? s = some id ↔ Function.FirstFor fs s id.index := by
  have hscan : (ofList fs).find? s = some id ↔ fs.findIdx? (·.signature.accepts s) = some id.index := by
    rw [find?_ofList, Option.map_eq_some_iff]
    constructor
    · rintro ⟨i, hi, rfl⟩
      exact hi
    · exact fun hi => ⟨_, hi, rfl⟩
  rw [hscan, List.findIdx?_eq_some_iff_getElem]
  constructor
  · rintro ⟨hlt, hfits, hfirst⟩
    refine ⟨⟨fs[id.index], List.getElem?_eq_getElem hlt, Function.overloads_iff.2 hfits⟩, fun j f hj hf hfit => ?_⟩
    obtain ⟨hjlt, rfl⟩ := List.getElem?_eq_some_iff.1 hf
    exact hfirst j hj (Function.overloads_iff.1 hfit)
  · rintro ⟨⟨f, hf, hfits⟩, hfirst⟩
    obtain ⟨hlt, rfl⟩ := List.getElem?_eq_some_iff.1 hf
    exact ⟨hlt, Function.overloads_iff.1 hfits, fun j hj hfit =>
      hfirst j _ hj (List.getElem?_eq_getElem (hj.trans hlt)) (Function.overloads_iff.2 hfit)⟩

theorem find?_ofList_eq_none_iff : (ofList fs).find? s = none ↔ ∀ f ∈ fs, ¬f.Overloads s := by
  rw [find?_ofList, Option.map_eq_none_iff, List.findIdx?_eq_none_iff]
  simp only [Function.overloads_iff, Bool.not_eq_true]

theorem find?_later (later : List Function) (h : (ofList fs).find? s = some id) :
    (later.foldl add (ofList fs)).find? s = some id := by
  rw [find?_ofList] at h
  rw [← ofList_append, find?_ofList, List.findIdx?_append]
  cases hi : fs.findIdx? (·.signature.accepts s) with
  | some i => rwa [hi] at h
  | none =>
    rw [hi] at h
    cases h

/-- Functions are found as by a scan of all of them in the order of their registration. An answer stays, and with
it the function it stands for, whatever is registered later; no answer means that none of them fits. -/
theorem find?_first_registered (fs : List Function) (s : Signature) :
    (∀ id, (ofList fs).get? id = fs[id.index]?) ∧
    (∀ id, (ofList fs).find? s = some id ↔ Function.FirstFor fs s id.index) ∧
    ((ofList fs).find? s = none ↔ ∀ f ∈ fs, ¬f.Overloads s) ∧
    (∀ id (later : List Function), (ofList fs).find? s = some id → (later.foldl add (ofList fs)).find? s = some id ∧
      (later.foldl add (ofList fs)).get? id = (ofList fs).get? id) ∧
    (∀ name, (ofList fs).isOperator name = true ↔ ∃ f ∈ fs, f.signature.name = name ∧ f.isOperator = true) := by
  refine ⟨get?_ofList fs, fun id => find?_ofList_eq_some_iff, find?_ofList_eq_none_iff, fun id later hid => ?_,
    isOperator_ofList fs⟩
  obtain ⟨f, hf, -⟩ := (find?_ofList_eq_some_iff.1 hid).fits
  obtain ⟨hlt, -⟩ := List.getElem?_eq_some_iff.1 hf
  refine ⟨find?_later later hid, ?_⟩
  rw [← ofList_append, get?_ofList, get?_ofList, List.getElem?_append_left hlt]

/-- Two integers, neither of them by reference, are assigned by the function for a reference and an integer, also
after a function of that very signature was registered. -/
theorem find?_first_registered_assignment :
    Function.FirstFor standardFunctions ⟨"=", .void, [{ type := .int }, { type := .int }]⟩ 26 ∧
    ([plain (binary "=" .int .void Native.assign)].foldl add standard).find? ⟨"=", .void,
    [{ type := .int }, { type := .int }]⟩ =
      some ⟨26⟩ := by
  have hresolved := find?_first_registered standardFunctions ⟨"=", .void, [{ type := .int }, { type := .int }]⟩
  have hfound : (ofList standardFunctions).find? ⟨"=", .void, [{ type := .int }, { type := .int }]⟩ = some ⟨26⟩ := by
    decide +kernel
  exact ⟨(hresolved.2.1 ⟨26⟩).1 hfound, (hresolved.2.2.2.1 ⟨26⟩ _ hfound).1⟩

end Library

end FlowGraph
