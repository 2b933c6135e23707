import FlowGraph.Proofs.Lexical

/-!
# Instructions in their place

What is known of a plan's parts is known of the instructions they become: each is placed where it finds the stack
it was written for, with the rest of its part behind it. The stack that a part finds stays below whatever the part
puts on it.
-/

namespace FlowGraph

open FlowGraph.Graph

def HoldsAlong (P : List Instruction → Stack → Prop) : List Instruction → Stack → Prop
  | [], _ => True
  | i :: is, st => P (i :: is) st ∧ HoldsAlong P is (i.op.act st)

theorem HoldsAlong.at_drop {P : List Instruction → Stack → Prop} {l : List Instruction} {st : Stack}
    (h : HoldsAlong P l st) {j : Nat} (hj : j < l.length) : P (l.drop j) (effect (l.take j) st) := by
  induction l generalizing st j with
  | nil => cases hj
  | cons i l ih =>
    cases j with
    | zero => exact h.1
    | succ j => exact ih h.2 (Nat.lt_of_succ_lt_succ hj)

def Instruction.Refers (g : Graph) (i : Instruction) (is : List Instruction) (st : Stack) : Prop :=
  match i.op with
  | .eval x | .deref x => g.contains x = true
  | .pushVar v => g.DeclaredOnEntry v
  | .pushFrame s => ∃ f body, f.scope = s ∧ g.OpensScope f body st ∧ f.opening ++ body.code <+: i :: is
  | _ => True

def RefersOnStack (g : Graph) (base : Stack) : List Instruction → Stack → Prop
  | [], _ => True
  | i :: is, st => base <:+ st ∧ i.Refers g is st

section

variable {g : Graph} {base st st' : Stack} {l l' : List Instruction} {ds : List Declaration} {f : Frame}

theorem HoldsAlong.append (h : HoldsAlong (RefersOnStack g base) l st) (hst : effect l st = st')
    (h' : HoldsAlong (RefersOnStack g base) l' st') :
    HoldsAlong (RefersOnStack g base) (l ++ l') st := by
  induction l generalizing st with
  | nil =>
    subst hst
    exact h'
  | cons i l ih =>
    obtain ⟨⟨hbase, hi⟩, h⟩ := h
    refine ⟨⟨hbase, ?_⟩, ih h hst⟩
    cases hop : i.op with
    | pushFrame s =>
      simp only [Instruction.Refers, hop] at hi ⊢
      obtain ⟨f, body, hs, hopensScope, hprefix⟩ := hi
      exact ⟨f, body, hs, hopensScope, hprefix.trans (List.prefix_append (i :: l) l')⟩
    | eval x | deref x | pushVar x => simpa only [Instruction.Refers, hop] using hi
    | _ => simp only [Instruction.Refers, hop]

theorem holdsAlong_pushVars (hds : ∀ d ∈ ds, g.DeclaredOnEntry d.node) (h : base <:+ st) :
    HoldsAlong (RefersOnStack g base) (pushVars ds) st := by
  induction ds generalizing st with
  | nil => trivial
  | cons d ds ih =>
    refine ⟨⟨h, hds d List.mem_cons_self⟩, ih (fun d' hd' => hds d' (List.mem_cons_of_mem d hd')) ?_⟩
    exact h.trans (List.suffix_cons _ _)

theorem holdsAlong_popVars (h : base <:+ st) : HoldsAlong (RefersOnStack g base) (popVars ds) (held ds ++ st) := by
  unfold popVars held
  induction ds.reverse with
  | nil => trivial
  | cons d ds ih => exact ⟨⟨h.trans (List.suffix_append _ _), trivial⟩, ih⟩

theorem holdsAlong_closing (h : base <:+ st) : HoldsAlong (RefersOnStack g base) f.closing (f.entries ++ st) := by
  have hframe : base <:+ .frame f.scope :: st := h.trans (List.suffix_cons _ _)
  rw [Frame.entries, List.append_assoc]
  exact (holdsAlong_popVars hframe).append (effect_popVars f.declarations _) ⟨⟨hframe, trivial⟩, trivial⟩

theorem holdsAlong_passUnless (name : String) (length : Nat) (h : base <:+ st) :
    HoldsAlong (RefersOnStack g base) (Plan.passUnless name length) st :=
    ⟨⟨h, trivial⟩, ⟨h, trivial⟩, ⟨h, trivial⟩, trivial⟩

theorem holdsAlong_jump {i : Instruction} {offset : Int} (hi : i.op.offset? = some offset) (h : base <:+ st) :
    HoldsAlong (RefersOnStack g base) [i] st := by
  refine ⟨⟨h, ?_⟩, trivial⟩
  cases hop : i.op with
  | eval | deref | pushVar | pushFrame =>
    rw [hop] at hi
    cases hi
  | _ => simp only [Instruction.Refers, hop]

theorem holdsAlong_open {body : Plan} {rest : List Instruction} (hopensScope : g.OpensScope f body st) (h : base <:+ st)
    (hbody : HoldsAlong (RefersOnStack g base) body.code (f.entries ++ st))
    (hrest : HoldsAlong (RefersOnStack g base) rest (f.entries ++ st)) :
    HoldsAlong (RefersOnStack g base) (f.opening ++ body.code ++ rest) st := by
  refine ⟨⟨h, f, body, rfl, hopensScope, List.prefix_append _ rest⟩, ?_⟩
  have hpushed := holdsAlong_pushVars hopensScope.declaredOnEntry (h.trans (List.suffix_cons (.frame f.scope) st))
  have hentries : effect (pushVars f.declarations) (.frame f.scope :: st) = f.entries ++ st := by
    simp [Frame.entries]
  exact (hpushed.append hentries hbody).append (by simp [hentries]) hrest

theorem Plan.Lexical.refersOnStack {p : Plan} (hp : p.Lexical g st) (h : base <:+ st) :
    HoldsAlong (RefersOnStack g base) p.code st := by
  induction p generalizing st with
  | skip => trivial
  | load | evaluate => exact ⟨⟨h, hp⟩, trivial⟩
  | constant => exact ⟨⟨h, trivial⟩, trivial⟩
  | seq first second ihFirst ihSecond =>
    obtain ⟨hfirst, hsecond⟩ := hp
    exact (ihFirst hfirst h).append (first.effect_code st) (ihSecond hsecond h)
  | frame f body ih =>
    obtain ⟨hopensScope, hbody⟩ := hp
    exact holdsAlong_open hopensScope h (ih hbody (h.trans (List.suffix_append _ _))) (holdsAlong_closing h)
  | loop name locals start test body step ihStart ihTest ihBody ihStep =>
    obtain ⟨hlocals, hstart, htest, hbody, hstep⟩ := hp
    have hpushed : base <:+ held locals ++ st := h.trans (List.suffix_append _ _)
    have hround : HoldsAlong (RefersOnStack g base) (body.code ++ step.code) (held locals ++ st) :=
      (ihBody hbody hpushed).append (body.effect_code _) (ihStep hstep hpushed)
    have htested (length : Nat) : HoldsAlong (RefersOnStack g base) (test.code ++ passUnless name length ++
        (body.code ++ step.code)) (held locals ++ st) :=
      ((ihTest htest hpushed).append (test.effect_code _) (holdsAlong_passUnless name length hpushed)).append
        (by simp) hround
    exact ((((holdsAlong_pushVars hlocals h).append (effect_pushVars locals st) (ihStart hstart hpushed)).append
      (by simp) (htested _)).append (by simp) (holdsAlong_jump rfl hpushed)).append
      (by simp [jumpBack, Op.act]) (holdsAlong_popVars h)
  | choice name test onTrue ihTest ihTrue =>
    obtain ⟨htest, htrue⟩ := hp
    exact ((ihTest htest h).append (test.effect_code st) (holdsAlong_passUnless name _ h)).append (by simp)
      (ihTrue htrue h)
  | choiceElse name test onTrue onFalse ihTest ihTrue ihFalse =>
    obtain ⟨htest, htrue, hfalse⟩ := hp
    exact ((((ihTest htest h).append (test.effect_code st) (holdsAlong_passUnless name _ h)).append (by simp)
      (ihTrue htrue h)).append (by simp) (holdsAlong_jump rfl h)).append (by simp [jumpPast, Op.act])
      (ihFalse hfalse h)

end

theorem Code.ContainsAt.of_prefix {c : Code} {line : Nat} {l l' : List Instruction} (h : c.ContainsAt line l')
    (hl : l <+: l') : c.ContainsAt line l := by
  obtain ⟨rest, rfl⟩ := hl
  exact h.left

theorem Code.ContainsAt.refersOnStack {g : Graph} {c : Code} {base : Stack} {is : List Instruction} {line line' : Nat}
    (h : c.ContainsAt line is) (halong : HoldsAlong (RefersOnStack g base) is (c.stackAt line)) (hle : line ≤ line')
    (hlt : line' < line + is.length) :
    ∃ i rest, c.ContainsAt line' (i :: rest) ∧ base <:+ c.stackAt line' ∧ i.Refers g rest (c.stackAt line') := by
  obtain ⟨j, rfl⟩ := Nat.exists_eq_add_of_le hle
  have hj : j < is.length := by omega
  have hrefersOnStack := halong.at_drop hj
  rw [← List.take_append_drop j is] at h
  have hstack := h.left.stackAt
  have hrest := h.right
  rw [List.length_take_of_le (Nat.le_of_lt hj)] at hstack hrest
  rw [List.drop_eq_getElem_cons hj] at hrefersOnStack hrest
  rw [← hstack] at hrefersOnStack
  exact ⟨_, _, hrest, hrefersOnStack⟩

theorem Program.refersOnStack {g : Graph} {c : Code} {p : Program} {insertReturn : Bool} (hg : WellFormed g)
    (hl : HasLayouts g) (hp : g.outline = .ok p) (hc : c = .ofList (p.code insertReturn)) {line : Nat} {op : Op}
    (hop : c.op? line = some op) :
    ∃ i rest, i.op = op ∧ c.ContainsAt line (i :: rest) ∧ i.Refers g rest (c.stackAt line) := by
  obtain ⟨hopensScope, hbody⟩ := outline_lexical hg hl hp
  rw [← List.append_nil p.frame.entries] at hbody
  have hret : HoldsAlong (RefersOnStack g []) ((if insertReturn then [⟨.ret, none⟩] else []) ++ p.frame.closing)
      (p.frame.entries ++ []) := by
    cases insertReturn with
    | false => exact holdsAlong_closing List.nil_suffix
    | true => exact ⟨⟨List.nil_suffix, trivial⟩, holdsAlong_closing List.nil_suffix⟩
  have halong : HoldsAlong (RefersOnStack g []) (p.code insertReturn) [] := by
    rw [Program.code, List.append_assoc]
    exact holdsAlong_open hopensScope List.nil_suffix (hbody.refersOnStack List.nil_suffix) hret
  obtain ⟨i, rest, hcontainsAt, -, hi⟩ := (p.containsAt hc).refersOnStack halong (Nat.zero_le line) (by
    rw [Nat.zero_add, ← p.size_eq hc]
    exact Code.lt_size_of_op? hop)
  exact ⟨i, rest, Option.some.inj (hcontainsAt.op?.symm.trans hop), hcontainsAt, hi⟩

end FlowGraph
