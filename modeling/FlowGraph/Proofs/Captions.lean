import FlowGraph.Proofs.Inventory
import FlowGraph.Proofs.Tokens

/-!
# Captions of properties

The type of a property, its value and its token are three copies of one thing. Every way to write a property keeps
them in step, and none of them touches the token of a keyword or an operator; so they are in step in all graphs
there are, and such a token stays as it was laid out for as long as its node is there.
-/

namespace FlowGraph

/-- The token is no literal, and shows some text. -/
def Token.Fixed (t : Token) : Prop := (∀ type, t.kind ≠ .literal type) ∧ t.isEmpty = false

theorem Token.replaceWord_owned (kind : TokenKind) (word other : String) :
    (owned kind word).replaceWord other = owned kind other := by
  have hbufferHolds := bufferHolds_owned kind word
  rw [replaceWord, hbufferHolds.lead, hbufferHolds.trail, String.empty_append, String.append_empty]
  rfl

namespace Property

structure TokenShowsValue (p : Property) : Prop where
  type : p.type = p.value.type
  literal {t : ValueType} : p.token.kind = .literal t → p.token = .literal p.value

structure WrittenTo (p p' : Property) : Prop where
  name : p'.name = p.name
  flags : p'.flags = p.flags
  token : p.token.Fixed → p'.token = p.token
  tokenShowsValue : p.TokenShowsValue → p'.TokenShowsValue

variable {p : Property}

theorem WrittenTo.refl (p : Property) : WrittenTo p p := ⟨rfl, rfl, fun _ => rfl, id⟩

theorem WrittenTo.trans {p₁ p₂ p₃ : Property} (h : WrittenTo p₁ p₂) (h' : WrittenTo p₂ p₃) : WrittenTo p₁ p₃ where
  name := h'.name.trans h.name
  flags := h'.flags.trans h.flags
  token hfixed := by
    have htoken := h.token hfixed
    exact (h'.token (htoken ▸ hfixed)).trans htoken
  tokenShowsValue hstep := h'.tokenShowsValue (h.tokenShowsValue hstep)

theorem setValue_of_fixed (h : p.token.Fixed) (v : Value) : (p.setValue v).token = p.token := by
  unfold setValue
  split
  next t hkind => exact (h.1 t hkind).elim
  next => exact if_neg (by rw [h.2]; exact Bool.false_ne_true)

theorem kind_setValue {v : Value} {t : ValueType} (h : (p.setValue v).token.kind = .literal t) :
    ∃ u, p.token.kind = .literal u := by
  unfold setValue at h
  split at h
  next u hkind => exact ⟨u, hkind⟩
  next =>
    change (if p.token.isEmpty then p.token.replaceWord v.text else p.token).kind = _ at h
    split at h
    next => exact ⟨t, h⟩
    next => exact ⟨t, h⟩

theorem setValue_of_literal {u : Value} (h : p.token = .literal u) (v : Value) : (p.setValue v).token = .literal v := by
  have hkind : p.token.kind = .literal u.type := by rw [h]; rfl
  rw [setValue, hkind, h]
  exact Token.replaceWord_owned (.literal v.type) u.text v.text

/-- A token that is a literal has been one all along, and so has shown the value before. -/
theorem writtenTo_setValue (p : Property) (v : Value) : WrittenTo p (p.setValue v) where
  name := rfl
  flags := rfl
  token hfixed := setValue_of_fixed hfixed v
  tokenShowsValue hstep := by
    refine ⟨rfl, fun hkind => ?_⟩
    obtain ⟨u, hliteral⟩ := kind_setValue hkind
    exact setValue_of_literal (hstep.literal hliteral) v

theorem writtenTo_setType (p : Property) (t : ValueType) : WrittenTo p (p.setType t) := by
  rw [setType]
  split
  next hsame => exact ⟨rfl, rfl, fun _ => rfl, fun hstep => ⟨hsame.symm, hstep.literal⟩⟩
  next => exact writtenTo_setValue p t.default

theorem writtenTo_apply (w : Writing) (p : Property) : WrittenTo p (w.apply p) := by
  cases w with
  | value v => exact writtenTo_setValue p v
  | type t => exact writtenTo_setType p t
  | default => exact writtenTo_setValue p p.type.default

theorem tokenShowsValue_create (name : String) (type : ValueType) (flags : PropertyFlags) :
    (create name type flags).TokenShowsValue :=
  ⟨(Value.type_default type).symm, fun _ => rfl⟩

theorem tokenShowsValue_labelled {token : Token} (h : ∀ t, token.kind ≠ .literal t) (hp : p.TokenShowsValue) :
    { p with token }.TokenShowsValue :=
  ⟨hp.type, fun hkind => (h _ hkind).elim⟩

end Property

namespace Node

theorem Layout.tokenShowsValue (l : Layout) (fanIn : Nat) (id : NodeId) :
    ∀ p ∈ (l.build fanIn id).properties.toList, p.TokenShowsValue := by
  have hvalue (type : ValueType) (flags : PropertyFlags) : (valueOf type flags).TokenShowsValue :=
    Property.tokenShowsValue_create ..
  cases l with
  | plain | entryPoint | declaration | reference => exact List.forall_mem_singleton.2 (hvalue _ _)
  | emptyInstruction =>
    exact List.forall_mem_singleton.2 (Property.tokenShowsValue_labelled (fun _ => TokenKind.noConfusion) (hvalue _ _))
  | literal value =>
    exact List.forall_mem_singleton.2 ((Property.writtenTo_setValue _ value).tokenShowsValue (hvalue _ _))
  | invokable kind signature callable =>
    refine List.forall_mem_cons.2 ⟨Property.tokenShowsValue_labelled (fun _ => TokenKind.noConfusion) (hvalue _ _),
      fun p hp => ?_⟩
    obtain ⟨i, hi, rfl⟩ := List.mem_mapIdx.1 hp
    exact Property.tokenShowsValue_create ..
  | conditional c =>
    have hkeyword : { valueOf .void {} with token := .owned c.tokenKind c.keyword }.TokenShowsValue :=
      Property.tokenShowsValue_labelled (fun _ => by cases c <;> exact TokenKind.noConfusion) (hvalue _ _)
    cases c with
    | ifElse | whileLoop =>
      exact List.forall_mem_cons.2 ⟨hkeyword, List.forall_mem_singleton.2 (Property.tokenShowsValue_create ..)⟩
    | forLoop =>
      exact List.forall_mem_cons.2 ⟨hkeyword, List.forall_mem_cons.2 ⟨Property.tokenShowsValue_create ..,
        List.forall_mem_cons.2 ⟨Property.tokenShowsValue_create ..,
        List.forall_mem_singleton.2 (Property.tokenShowsValue_create ..)⟩⟩⟩

structure Rewritten (n n' : Node) : Prop where
  shape : n'.shape = n.shape
  properties (i : Nat) : Option.Rel Property.WrittenTo (n.properties.get? i) (n'.properties.get? i)

namespace Rewritten

variable {n n₁ n₂ n₃ : Node}

theorem of_properties (hshape : n₂.shape = n₁.shape) (hproperties : n₂.properties = n₁.properties) :
    Rewritten n₁ n₂ := by
  refine ⟨hshape, fun i => ?_⟩
  rw [hproperties]
  cases n₁.properties.get? i with
  | none => exact .none
  | some p => exact .some (.refl p)

theorem refl (n : Node) : Rewritten n n := .of_properties rfl rfl

theorem get? (h : Rewritten n₁ n₂) {i : Nat} {p : Property} (hp : n₁.properties.get? i = some p) :
    ∃ p', n₂.properties.get? i = some p' ∧ p.WrittenTo p' := by
  have hi := h.properties i
  rw [hp] at hi
  generalize n₂.properties.get? i = p? at hi
  cases hi with
  | some hwrittenTo => exact ⟨_, rfl, hwrittenTo⟩

theorem of_get? (h : Rewritten n₁ n₂) {i : Nat} {p' : Property} (hp' : n₂.properties.get? i = some p') :
    ∃ p, n₁.properties.get? i = some p ∧ p.WrittenTo p' := by
  have hi := h.properties i
  rw [hp'] at hi
  generalize n₁.properties.get? i = p? at hi
  cases hi with
  | some hwrittenTo => exact ⟨_, rfl, hwrittenTo⟩

theorem trans (h : Rewritten n₁ n₂) (h' : Rewritten n₂ n₃) : Rewritten n₁ n₃ := by
  refine ⟨h'.shape.trans h.shape, fun i => ?_⟩
  cases hp₁ : n₁.properties.get? i with
  | none =>
    cases hp₃ : n₃.properties.get? i with
    | none => exact .none
    | some p₃ =>
      obtain ⟨p₂, hp₂, -⟩ := h'.of_get? hp₃
      obtain ⟨p₁, hp₁', -⟩ := h.of_get? hp₂
      cases hp₁.symm.trans hp₁'
  | some p₁ =>
    obtain ⟨p₂, hp₂, hfirst⟩ := h.get? hp₁
    obtain ⟨p₃, hp₃, hsecond⟩ := h'.get? hp₂
    rw [hp₃]
    exact .some (hfirst.trans hsecond)

theorem modifyProperty (n : Node) (i : Nat) (w : Property.Writing) : Rewritten n (n.modifyProperty i w.apply) := by
  refine ⟨n.shape_modifyProperty i w.apply, fun j => ?_⟩
  have hget : (n.modifyProperty i w.apply).properties.get? j =
      (fun p => if i = j then w.apply p else p) <$> n.properties.get? j := List.getElem?_modify ..
  rw [hget]
  cases n.properties.get? j with
  | none => exact .none
  | some p =>
    refine .some ?_
    split
    next => exact Property.writtenTo_apply w p
    next => exact .refl p

end Rewritten

theorem keptByEdits_rewritten : KeptByEdits Rewritten where
  refl := .refl
  trans := .trans
  moved _ _ := .of_properties rfl rfl
  retouched := .modifyProperty
  relinked n id _ hf := .of_properties (n.shape_modifySlot id hf) rfl

end Node

namespace Graph

open Relation

variable {may : Graph → NodeId → ScopeId → Prop} {g g' g₁ g₂ g₃ : Graph} {id : NodeId}

def AllRewritten (g g' : Graph) : Prop := ∀ x n', g'.nodeAt? x = some n' → ∃ n, g.nodeAt? x = some n ∧ n.Rewritten n'

theorem AllRewritten.of_nodes (h : ∀ x, g'.nodeAt? x = g.nodeAt? x) : AllRewritten g g' :=
  Node.keptByEdits_rewritten.survivorsRelated_of_nodes h

theorem AllRewritten.steps (h : Steps may g g') : AllRewritten g g' := Node.keptByEdits_rewritten.steps h

/-- The graph is what others' identifiers and further edits make of the first one. -/
abbrev EditedInto : Graph → Graph → Prop :=
  ReflTransGen fun g g' => (∃ e, g.perform e = .ok g') ∨ ∃ ids, g.ids.next ≤ ids.next ∧ g' = { g with ids }

theorem editedInto_foldlM {es : List Edit} (h : es.foldlM perform g = .ok g') : EditedInto g g' :=
  foldlM_induction (P := EditedInto g) h .refl fun _ e _ _ hbefore hperform => hbefore.tail (.inl ⟨e, hperform⟩)

theorem Reachable.editedInto (hr : Reachable g) (h : EditedInto g g') : Reachable g' := by
  induction h with
  | refl => exact hr
  | tail _ hnext ih =>
    rcases hnext with ⟨e, hperform⟩ | ⟨ids, hids, rfl⟩
    · exact ih.edit e hperform
    · exact ih.issued hids

structure RewrittenOrNew (g g' : Graph) : Prop where
  ids : g.ids.next ≤ g'.ids.next
  config : g'.config = g.config
  node {x : NodeId} {n' : Node} : g'.nodeAt? x = some n' → (∃ n, g.nodeAt? x = some n ∧ n.Rewritten n') ∨
    g.ids.next ≤ x.raw ∧ ∃ l : Node.Layout, (l.build g.config.fanIn x).Rewritten n'

namespace RewrittenOrNew

theorem of_allRewritten (hids : g.ids.next ≤ g'.ids.next) (hconfig : g'.config = g.config) (h : AllRewritten g g') :
    RewrittenOrNew g g' :=
  ⟨hids, hconfig, fun hn => .inl (h _ _ hn)⟩

theorem steps (h : Steps may g g') : RewrittenOrNew g g' :=
  of_allRewritten (Nat.le_of_eq (congrArg _ h.survivorsKept.ids.symm)) h.survivorsKept.config (.steps h)

theorem refl (g : Graph) : RewrittenOrNew g g := of_allRewritten (Nat.le_refl _) rfl (.of_nodes fun _ => rfl)

theorem trans (h : RewrittenOrNew g₁ g₂) (h' : RewrittenOrNew g₂ g₃) : RewrittenOrNew g₁ g₃ := by
  refine ⟨h.ids.trans h'.ids, h'.config.trans h.config, fun {x n₃} hn₃ => ?_⟩
  rcases h'.node hn₃ with ⟨n₂, hn₂, hsecond⟩ | ⟨hlow, l, hl⟩
  · rcases h.node hn₂ with ⟨n₁, hn₁, hfirst⟩ | ⟨hlow, l, hl⟩
    · exact .inl ⟨n₁, hn₁, hfirst.trans hsecond⟩
    · exact .inr ⟨hlow, l, hl.trans hsecond⟩
  · rw [h.config] at hl
    exact .inr ⟨h.ids.trans hlow, l, hl⟩

theorem spawn {l : Node.Layout} {partitions : Option Nat} {s : Option ScopeId}
    (h : g.spawn (l.build g.config.fanIn) partitions s = .ok (id, g')) : RewrittenOrNew g g' := by
  have hbuildsUnlinked := buildsUnlinked_build l g.config.fanIn
  obtain ⟨n, ps, g₁, hnew, -, heditMoves⟩ := spawn_editMoves hbuildsUnlinked h
  have hborn : RewrittenOrNew g g₁ := by
    refine ⟨hnew.ids, hnew.config, fun {x m} hm => ?_⟩
    rw [hnew.nodeAt?] at hm
    split at hm
    next hx =>
      cases hm
      subst hx
      refine .inr ⟨(ids_spawn hbuildsUnlinked h).1.ge, l, ?_⟩
      rw [hnew.built]
      exact .of_properties rfl rfl
    next => exact .inl ⟨m, hm, .refl m⟩
  exact hborn.trans (steps heditMoves.moves.changes.steps)

theorem entryPointAlone {g₀ : Graph} (h : EntryPointAlone g₀ g) : RewrittenOrNew g₀ g := by
  refine ⟨by rw [h.ids]; omega, h.config, fun {x n} hn => ?_⟩
  rw [h.nodeAt?] at hn
  split at hn
  next hx =>
    cases hn
    subst hx
    exact .inr ⟨Nat.le_refl _, .entryPoint, .of_properties rfl rfl⟩
  next => cases hn

theorem perform {e : Edit} (hg : WellFormed g) (h : g.perform e = .ok g') : RewrittenOrNew g g' := by
  cases hg.addThenSteps h with
  | steps hsteps => exact steps hsteps
  | birth hbirth hsteps =>
    obtain ⟨-, s, hspawn⟩ := hbirth
    exact (spawn hspawn).trans (steps hsteps)
  | reset hreset =>
    obtain ⟨arena, hholdsNothing, hspawn⟩ := reset_eq_cleared hg.nodesListed hreset
    have hcleared : RewrittenOrNew g (g.cleared arena) := by
      refine .of_allRewritten (Nat.le_refl _) rfl fun x n hn => ?_
      cases (hholdsNothing.nodeAt? x).symm.trans hn
    exact hcleared.trans (entryPointAlone (hholdsNothing.entryPointAlone hspawn))
  | drain => exact of_allRewritten (Nat.le_refl _) rfl (.of_nodes fun _ => rfl)

theorem editedInto (hr : Reachable g) (h : EditedInto g g') : RewrittenOrNew g g' := by
  induction h with
  | refl => exact .refl g
  | tail hbefore hnext ih =>
    rcases hnext with ⟨e, hperform⟩ | ⟨ids, hids, rfl⟩
    · exact ih.trans (perform (hr.editedInto hbefore).wellFormed hperform)
    · exact ih.trans (of_allRewritten hids rfl (.of_nodes fun _ => rfl))

theorem rewritten (h : RewrittenOrNew g g') (hr : Reachable g) {x : NodeId} {n n' : Node} (hn : g.nodeAt? x = some n)
    (hn' : g'.nodeAt? x = some n') : n.Rewritten n' := by
  rcases h.node hn' with ⟨m, hm, hrewritten⟩ | ⟨hlow, -⟩
  · cases hn.symm.trans hm
    exact hrewritten
  · have hx : x ∈ g.nodes := hr.wellFormed.nodesListed.mem_nodes_iff.2 (by rw [hn]; rfl)
    exact absurd (hr.nodesOrdered.issued hx) (Nat.not_lt.2 hlow)

end RewrittenOrNew

def AllFromLayouts (g : Graph) : Prop :=
  ∀ x n, g.nodeAt? x = some n → ∃ l : Node.Layout, (l.build g.config.fanIn x).Rewritten n

theorem AllFromLayouts.rewrittenOrNew (hc : AllFromLayouts g) (h : RewrittenOrNew g g') : AllFromLayouts g' := by
  intro x n' hn'
  rw [h.config]
  rcases h.node hn' with ⟨n, hn, hrewritten⟩ | ⟨-, hlayouts⟩
  · obtain ⟨l, hl⟩ := hc x n hn
    exact ⟨l, hl.trans hrewritten⟩
  · exact hlayouts

theorem Reachable.allFromLayouts (hr : Reachable g) : AllFromLayouts g := by
  induction hr with
  | create hcreate =>
    obtain ⟨g₀, hholdsNothing, -, -, hspawn⟩ := create_eq hcreate
    have hnone : AllFromLayouts g₀ := fun x n hn => by cases (hholdsNothing.nodeAt? x).symm.trans hn
    exact hnone.rewrittenOrNew (.entryPointAlone (hholdsNothing.entryPointAlone hspawn))
  | edit e hreachable hperform ih => exact ih.rewrittenOrNew (.perform hreachable.wellFormed hperform)
  | issued _ hids ih => exact ih

/-- A property shows what it is. A literal has nothing but the value's text, and says which type that is. -/
structure ShowsOwnValue (p : Property) : Prop where
  type : p.type = p.value.type
  literal {t : ValueType} : p.token.kind = .literal t →
    t = p.type ∧ p.token.lead = "" ∧ p.token.word = p.value.text ∧ p.token.trail = ""

theorem showsOwnValue_of_tokenShowsValue {p : Property} (h : p.TokenShowsValue) : ShowsOwnValue p := by
  refine ⟨h.type, fun {t} hkind => ?_⟩
  have hbufferHolds : p.token.BufferHolds { kind := .literal p.value.type, word := p.value.text } := by
    rw [h.literal hkind]
    exact Token.bufferHolds_owned _ _
  have hsame : TokenKind.literal t = .literal p.value.type := hkind.symm.trans hbufferHolds.kind
  exact ⟨(TokenKind.literal.inj hsame).trans h.type.symm, hbufferHolds.lead, hbufferHolds.word, hbufferHolds.trail⟩

/-- In a graph that there is all properties show what they are. A token that was laid out as something else than a
literal, with some text, is the same in the node as it is now, and in any later graph for as long as the node is
there. -/
theorem Reachable.captions (hr : Reachable g) :
    (∀ x n, g.nodeAt? x = some n → ∀ p ∈ n.properties.toList, ShowsOwnValue p) ∧
    (∀ x n, g.nodeAt? x = some n → ∃ l : Node.Layout, n.shape = (l.build g.config.fanIn x).shape ∧
      ∀ i p, (l.build g.config.fanIn x).properties.get? i = some p → p.token.Fixed →
        ∃ p', n.properties.get? i = some p' ∧ p'.token = p.token ∧ p'.name = p.name ∧ p'.flags = p.flags) ∧
    (∀ g', EditedInto g g' → ∀ x n n', g.nodeAt? x = some n → g'.nodeAt? x = some n' →
      ∀ i p, n.properties.get? i = some p → p.token.Fixed →
        ∃ p', n'.properties.get? i = some p' ∧ p'.token = p.token ∧ p'.name = p.name ∧ p'.flags = p.flags) := by
  refine ⟨fun x n hn p hp => ?_, fun x n hn => ?_, fun g' heditedInto x n n' hn hn' i p hp hfixed => ?_⟩
  · obtain ⟨l, hl⟩ := hr.allFromLayouts x n hn
    obtain ⟨i, hi⟩ := List.getElem?_of_mem hp
    obtain ⟨p₀, hp₀, hwrites⟩ := hl.of_get? hi
    exact showsOwnValue_of_tokenShowsValue
      (hwrites.tokenShowsValue (l.tokenShowsValue _ x p₀ (List.mem_of_getElem? hp₀)))
  · obtain ⟨l, hl⟩ := hr.allFromLayouts x n hn
    refine ⟨l, hl.shape, fun i p hp hfixed => ?_⟩
    obtain ⟨p', hp', hwrites⟩ := hl.get? hp
    exact ⟨p', hp', hwrites.token hfixed, hwrites.name, hwrites.flags⟩
  · obtain ⟨p', hp', hwrites⟩ := ((RewrittenOrNew.editedInto hr heditedInto).rewritten hr hn hn').get? hp
    exact ⟨p', hp', hwrites.token hfixed, hwrites.name, hwrites.flags⟩

/-- An operator is node 3, and a literal is node 4. -/
def labelled : Except Fault Graph := do
  [.operator ⟨"+", .int, [{ type := .int }, { type := .int }]⟩ ⟨2⟩, .literal (.int 5) ⟨2⟩].foldlM perform
    (← create {} {} default {})

/-- Both get other values. The operator is still shown by its name. -/
theorem captions_labelled : ∃ g g' n n' m p p' q, labelled = .ok g ∧
    [.setValue ⟨3⟩ (.int 3), .setValue ⟨4⟩ (.bool true)].foldlM perform g = .ok g' ∧
    g.nodeAt? ⟨3⟩ = some n ∧ n.properties.get? 0 = some p ∧ p.token = .owned .operator "+" ∧
    g'.nodeAt? ⟨3⟩ = some n' ∧ n'.properties.get? 0 = some p' ∧ p'.value = .int 3 ∧ p'.token = p.token ∧
    g'.nodeAt? ⟨4⟩ = some m ∧ q ∈ m.properties.toList ∧ q.value = .bool true ∧ ShowsOwnValue q := by
  obtain ⟨u, h⟩ := exists_of_isOk (x := do
    let g ← labelled
    let g' ← [.setValue ⟨3⟩ (.int 3), .setValue ⟨4⟩ (.bool true)].foldlM perform g
    let n ← g.node ⟨3⟩
    let n' ← g'.node ⟨3⟩
    let m ← g'.node ⟨4⟩
    if ¬((n.properties.get? 0).map (·.token) = some (.owned .operator "+") ∧
      (n'.properties.get? 0).map (·.value) = some (.int 3) ∧ (m.properties.get? 0).map (·.value) = some (.bool true))
    then throw .endless) (by decide +kernel)
  simp only [bind_eq_ok, node_eq_ok_iff] at h
  obtain ⟨g, hg, g', hg', n, hn, n', hn', m, hm, h⟩ := h
  split at h
  next => cases h
  next hkept =>
    obtain ⟨hp, hp', hq⟩ := not_not.1 hkept
    obtain ⟨p, hp, htoken⟩ := Option.map_eq_some_iff.1 hp
    obtain ⟨p', hp', hvalue⟩ := Option.map_eq_some_iff.1 hp'
    obtain ⟨q, hq, hvalue'⟩ := Option.map_eq_some_iff.1 hq
    have hr : Reachable g := by
      simp only [labelled, bind_eq_ok] at hg
      obtain ⟨g₀, hcreate, hg⟩ := hg
      exact (Reachable.create hcreate).editedInto (editedInto_foldlM hg)
    have heditedInto := editedInto_foldlM hg'
    have hfixed : p.token.Fixed := by
      rw [htoken]
      exact ⟨fun _ => TokenKind.noConfusion, by decide⟩
    obtain ⟨p'', hp'', hsame, -⟩ := hr.captions.2.2 g' heditedInto ⟨3⟩ n n' hn hn' 0 p hp hfixed
    cases hp'.symm.trans hp''
    have hmem := List.mem_of_getElem? hq
    exact ⟨g, g', n, n', m, p, p', q, hg, hg', hn, hp, htoken, hn', hp', hvalue, hsame, hm, hmem, hvalue',
      (hr.editedInto heditedInto).captions.1 ⟨4⟩ m hm q hmem⟩

end Graph

end FlowGraph
