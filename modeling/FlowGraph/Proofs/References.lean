import FlowGraph.Proofs.Atomicity
import FlowGraph.Proofs.Readings
import FlowGraph.Proofs.Refusals
import FlowGraph.Proofs.Retinue

/-!
# What references refer to

A reference is tied to its variable by a value link, and by nothing else. It is checked when the reference is created
that what it refers to is a variable. Whoever links the reference anew is not asked. All other edits leave references
with variables or with nothing.
-/

namespace FlowGraph

namespace Graph

/-- Whatever a reference refers to is a variable. -/
def ReferToVariables (g : Graph) : Prop :=
  ∀ r x, g.referencedVariable r = .ok (some x) → ∃ n, g.node x = .ok n ∧ n.kind = .variable

def RequestsLink (g : Graph) (l : Link) : Edit → Prop
  | .connect a b _ | .connectOrMerge a b => g.validateLink a b = .ok (.ok l)
  | _ => False

/-- A reference is linked to a node that is no variable. -/
structure Mislinks (g g' : Graph) (e : Edit) (l : Link) : Prop where
  asked : RequestsLink g l e
  made : l ∈ g'.valueLinks
  reference : ∃ r, g.node l.head.node = .ok r ∧ r.kind = .variableRef
  other : ∃ x, g.node l.tail.node = .ok x ∧ x.kind ≠ .variable

variable {g g' : Graph} {id r x : NodeId} {n : Node} {l : Link} {e : Edit}

theorem first_of_mem {slot : Slot} {source : SlotRef} (hl : HasLayouts g) (hw : LinksMatch g)
    (hn : g.nodeAt? id = some n) (hslot : slot ∈ n.filterSlots .input) (hsource : source ∈ slot.adjacent) :
    slot.first? = some source := by
  obtain ⟨hmem, hkind, hprimary⟩ := Node.mem_filterSlots_input.1 hslot
  obtain ⟨i, hi⟩ := List.getElem?_of_mem hmem
  have hat : g.slotAt? ⟨id, ⟨i⟩⟩ = some slot := by rw [slotAt?, hn, Option.bind_some, Node.slot?, hi]
  have hlength : slot.adjacent.length ≤ 1 := (hl.input_traits hn hmem hkind hprimary).1 ▸ (hw.roomKnown hat).1
  obtain ⟨first, rest, hadjacent⟩ := List.exists_cons_of_ne_nil (List.ne_nil_of_mem hsource)
  obtain rfl : rest = [] := by
    rw [hadjacent, List.length_cons] at hlength
    exact List.length_eq_zero_iff.1 (by omega)
  rw [hadjacent, List.mem_singleton] at hsource
  rw [Slot.first?, hadjacent, hsource]
  rfl

theorem valueIn?_of_input {slot : Slot} (hl : HasLayouts g) (hn : g.nodeAt? r = some n) (hkind : n.kind = .variableRef)
    (hslot : slot ∈ n.filterSlots .input) : n.valueIn? = some slot := by
  obtain ⟨found, hfound⟩ := hl.exists_valueIn hn hkind
  obtain ⟨offset, hoffset⟩ := hl.inputs_apart hn
  have hplace {slot : Slot} (hslot : slot ∈ n.filterSlots .input) : n.slots[offset]? = some slot := by
    obtain ⟨hmem, hvalue, hprimary⟩ := Node.mem_filterSlots_input.1 hslot
    obtain ⟨i, hi⟩ := List.getElem?_of_mem hmem
    have hzero : slot.property = 0 := by
      obtain ⟨-, ⟨hzero, -⟩ | ⟨-, hother⟩⟩ := hl.input_traits hn hmem hvalue hprimary
      · exact hzero
      · rw [Node.isInvokable, hkind] at hother
        rcases hother with ⟨⟨⟩⟩ | ⟨⟨⟩⟩
    have hi' := (hoffset i slot hi hvalue hprimary).1
    rw [hzero, Nat.zero_add] at hi'
    exact hi' ▸ hi
  rw [hfound]
  exact (hplace (List.mem_of_find?_eq_some hfound)).symm.trans (hplace hslot)

theorem refersTo_iff (hl : HasLayouts g) (hw : LinksMatch g) (hn : g.nodeAt? r = some n)
    (hkind : n.kind = .variableRef) :
    RefersTo g r x ↔ ∃ l ∈ g.valueLinks, l.tail.node = x ∧ l.head.node = r := by
  have hpoints : RefersTo g r x ↔ (n.valueIn?.bind Slot.first?).map (·.node) = some x := by
    rw [RefersTo, referencedVariable, node_eq_ok_iff.2 hn, ok_bind, if_pos hkind, pure_eq_ok]
  rw [hpoints, ← hw.mem_inputs_iff hn, Node.mem_inputs]
  constructor
  · intro hx
    obtain ⟨source, hsource, rfl⟩ := Option.map_eq_some_iff.1 hx
    obtain ⟨slot, hslot, hfirst⟩ := Option.bind_eq_some_iff.1 hsource
    exact ⟨slot, List.mem_of_find?_eq_some hslot, source, List.mem_of_mem_head? hfirst, rfl⟩
  · rintro ⟨slot, hslot, source, hsource, rfl⟩
    rw [valueIn?_of_input hl hn hkind hslot, Option.bind_some, first_of_mem hl hw hn hslot hsource, Option.map_some]

theorem LinksMatch.ends (hw : LinksMatch g) (hlink : l ∈ g.valueLinks) :
    (∃ n, g.nodeAt? l.tail.node = some n) ∧ ∃ n, g.nodeAt? l.head.node = some n := by
  obtain ⟨htail, hhead⟩ := ((hw.linksOfSurvivors .value l).1 hlink).2
  exact ⟨Option.isSome_iff_exists.1 htail, Option.isSome_iff_exists.1 hhead⟩

theorem referToVariables_iff (hl : HasLayouts g) (hw : LinksMatch g) : ReferToVariables g ↔
    ∀ l ∈ g.valueLinks, ∀ n m, g.nodeAt? l.head.node = some n → n.kind = .variableRef →
      g.nodeAt? l.tail.node = some m → m.kind = .variable := by
  constructor
  · intro h l hlink n m hn hkind hm
    obtain ⟨m', hm', hvariable⟩ := h _ _ ((refersTo_iff hl hw hn hkind).2 ⟨l, hlink, rfl, rfl⟩)
    cases hm.symm.trans (node_eq_ok_iff.1 hm')
    exact hvariable
  · intro h r x hx
    have hx' := hx
    simp only [referencedVariable, bind_eq_ok, node_eq_ok_iff] at hx'
    obtain ⟨n, hn, hx'⟩ := hx'
    split at hx'
    next hkind =>
      obtain ⟨l, hlink, rfl, rfl⟩ := (refersTo_iff hl hw hn hkind).1 hx
      obtain ⟨m, hm⟩ := (hw.ends hlink).1
      exact ⟨m, node_eq_ok_iff.2 hm, h l hlink n m hn hkind hm⟩
    next => cases hx'

theorem ends_of_validateLink {a b : SlotRef} (h : g.validateLink a b = .ok (.ok l)) :
    l.tail = a ∧ l.head = b ∨ l.tail = b ∧ l.head = a := by
  obtain ⟨slot, -, -, -, -, rfl⟩ := validateLink_eq_ok_iff.1 h
  rw [Slot.linkTo]
  split
  next => exact .inl ⟨rfl, rfl⟩
  next => exact .inr ⟨rfl, rfl⟩

theorem links_spawn {build : NodeId → Node} {partitions : Option Nat} {s : Option ScopeId}
    (hbuildsUnlinked : BuildsUnlinked g.config.fanIn build) (h : g.spawn build partitions s = .ok (id, g'))
    (k : SlotKind) :
    g'.links k = g.links k := by
  obtain ⟨n, ps, g₁, hnew, -, heditMoves⟩ := spawn_editMoves hbuildsUnlinked h
  exact (links_moves heditMoves.moves k).trans (links_congr hnew.valueLinks hnew.flowLinks k)

theorem mem_valueLinks_connect {a b : SlotRef} {sideEffects : Bool} {r : Except ConnectError Link}
    (h : g.connect a b sideEffects = .ok (g', r)) (hlink : l ∈ g'.links .value) :
    l ∈ g.links .value ∨ g.validateLink a b = .ok (.ok l) := by
  rcases connect_eq h with ⟨rfl, -⟩ | ⟨made, -, hvalid, hcases⟩
  · exact .inl hlink
  have hadded : g'.links .value = (g.addLink made).links .value := by
    rcases hcases with ⟨-, rfl⟩ | ⟨-, -, hflow⟩ | ⟨-, -, hvalue⟩
    · rfl
    · exact links_moves (onFlowConnected_editMoves guards_always hflow).moves .value
    · obtain ⟨tail, moved, -, hmoved, hpropertyWritten⟩ := onValueConnected_eq hvalue
      exact (hpropertyWritten.links .value).trans (links_moves (hmoved.editMoves guards_always).moves .value)
  rw [hadded, links_addLink] at hlink
  split at hlink
  next =>
    rcases List.mem_append.1 hlink with hlink | hlink
    · exact .inl hlink
    · obtain rfl := List.mem_singleton.1 hlink
      exact .inr hvalid
  next => exact .inl hlink

theorem mem_valueLinks_disconnect {link : Link} {sideEffects : Bool} {r : Except ConnectError Unit}
    (h : g.disconnect link sideEffects = .ok (g', r)) (hlink : l ∈ g'.links .value) : l ∈ g.links .value := by
  rcases disconnect_eq h with ⟨-, rfl⟩ | ⟨-, hcases⟩
  · exact hlink
  have hremoved : g'.links .value = (g.removeLink link).links .value := by
    rcases hcases with ⟨-, rfl⟩ | ⟨-, -, hflow⟩ | ⟨-, -, hvalue⟩
    · rfl
    · exact links_moves (onFlowDisconnected_editMoves guards_always hflow).moves .value
    · exact (onValueDisconnected_eq hvalue).links .value
  rw [hremoved, links_removeLink] at hlink
  split at hlink
  next => exact List.mem_of_mem_erase hlink
  next => exact hlink

theorem linksOfSurvivors_destroy {sideEffects : Bool} (hs : LinksScopesValid g)
    (h : g.destroy id sideEffects = .ok g') :
    LinksOfSurvivors .value g g' := by
  obtain ⟨k, h⟩ := destroyWithin_of_destroy h
  cases sideEffects with
  | true => exact linksOfSurvivors_destroyWithin hs h
  | false =>
    rcases destroyWithin_eq h with ⟨-, rfl⟩ | ⟨n, inner, -, -, -, hstages⟩
    · exact hs.linksMatch.linksOfSurvivors .value
    · cases hstages with
      | plain _ hremove => exact linksOfSurvivors_remove hs.linksMatch hremove .value
      | raw _ hrescue hremove =>
        have hmoves := rescue_moves (guards_always _) hrescue
        intro l
        rw [linksOfSurvivors_remove (hs.linksMatch.changes hmoves.changes) hremove .value l, links_moves hmoves]

theorem mem_valueLinks_connectOrMerge {output input : SlotRef} {r : Except ConnectError (Option Link)}
    (hs : LinksScopesValid g) (h : g.connectOrMerge output input = .ok (g', r)) (hlink : l ∈ g'.links .value) :
    l ∈ g.links .value ∨ g.validateLink output input = .ok (.ok l) := by
  rcases connectOrMerge_eq h with ⟨linked, hconnect, -⟩ | ⟨rfl, -⟩ | ⟨i, value, hdestroy, -⟩
  · exact mem_valueLinks_connect hconnect hlink
  · exact .inl hlink
  · have hchange :
        Change always g (g.modifyNode input.node (·.modifyProperty i (Property.Writing.value value).apply)) :=
      .retouch _ _ _
    have hkept := ((linksOfSurvivors_destroy (hs.step (.change hchange)) hdestroy l).1 hlink).1
    rw [links_modifyNode] at hkept
    exact .inl hkept

theorem createReference_eq_ok {source : NodeId} {s : ScopeId} (h : g.createReference source s = .ok (g', .ok id)) :
    ∃ n output g₁ l, g.nodeAt? source = some n ∧ n.kind = .variable ∧ g.valueOut? source = .ok (some output) ∧
      g.spawn (Node.reference n.valueProperty.type n.name g.config.fanIn) none (some s) = .ok (id, g₁) ∧
      g₁.validateLink output ⟨id, ⟨0⟩⟩ = .ok (.ok l) ∧ g' = g₁.addLink l := by
  simp only [createReference, bind_eq_ok] at h
  obtain ⟨found, hfound, h⟩ := h
  cases found with
  | none => cases h
  | some n =>
    simp only at h
    split at h
    next => cases h
    next hvariable =>
      obtain ⟨output, houtput, h⟩ := bind_eq_ok.1 h
      cases output with
      | none => cases h
      | some output =>
        simp only [bind_eq_ok] at h
        obtain ⟨⟨created, g₁⟩, hspawn, ⟨g₂, linked⟩, hconnect, h⟩ := h
        cases linked with
        | error e =>
          obtain ⟨g₃, -, h⟩ := bind_eq_ok.1 h
          cases h
        | ok _ =>
          cases h
          rcases connect_eq hconnect with ⟨-, _, ⟨⟩⟩ | ⟨l, -, hl, ⟨-, rfl⟩ | ⟨⟨⟩, -⟩ | ⟨⟨⟩, -⟩⟩
          exact ⟨n, output, g₁, l,
            node?_eq_some_iff.1 hfound, by simpa [Node.isVariable] using hvariable, houtput, hspawn,
            hl, rfl⟩

theorem HoldsNothing.links_entryPoint {g₀ : Graph} (h : HoldsNothing g₀) (hspawn : g₀.spawnEntryPoint = .ok g)
    (k : SlotKind) :
    g.links k = [] := by
  simp only [spawnEntryPoint, bind_eq_ok, pure_eq_ok] at hspawn
  obtain ⟨⟨id, g₁⟩, hg₁, rfl⟩ := hspawn
  have hlinks : g₁.links k = [] := (links_spawn (Node.buildsUnlinked_entryPoint _) hg₁ k).trans (h.links k)
  cases k <;> exact hlinks

theorem HasLayouts.node_of_valueOut? (hl : HasLayouts g) {source : NodeId} {output : SlotRef}
    (h : g.valueOut? source = .ok (some output)) : output.node = source := by
  simp only [valueOut?, findSlot?, bind_eq_ok, pure_eq_ok] at h
  obtain ⟨found, hfound, h⟩ := h
  obtain ⟨n, rfl, h⟩ := Option.bind_eq_some_iff.1 h
  obtain ⟨slot, -, rfl⟩ := Option.map_eq_some_iff.1 h
  exact hl.id_eq (node?_eq_some_iff.1 hfound)

theorem links_create (h : g.perform e = .ok g') (he : e.creates = true)
    (hreference : ∀ source s, e ≠ .reference source s) (k : SlotKind) : g'.links k = g.links k := by
  have heffect : EffectBy Eq g e g' := create_effect_of_ne (fun _ => rfl) he hreference h
  cases heffect with
  | changes _ hsame => rw [hsame]
  | create _ hbuildsUnlinked hspawn hsame =>
    rw [← hsame]
    exact links_spawn hbuildsUnlinked hspawn k
  | block _ hbuildsUnlinked hspawn => exact links_spawn hbuildsUnlinked hspawn k
  | undo => exact (hreference _ _ rfl).elim
  | destroy hdestroys => cases e <;> cases he <;> cases hdestroys
  | reset | drain => cases he

theorem mem_valueLinks_createReference {source : NodeId} {s : ScopeId} {r : Except ConnectError NodeId}
    (hw : WellFormed g) (hl : HasLayouts g) (h : g.createReference source s = .ok (g', r))
    (hlink : l ∈ g'.links .value) :
    l ∈ g.links .value ∨ ∃ n, g.nodeAt? source = some n ∧ n.kind = .variable ∧ l.involves source = true := by
  cases r with
  | error _ =>
    rcases hw.createReference_error h with rfl | ⟨id, rfl⟩
    · exact .inl hlink
    · exact .inl hlink
  | ok id =>
    obtain ⟨n, output, g₁, made, hn, hkind, houtput, hspawn, hvalid, rfl⟩ := createReference_eq_ok h
    rw [links_addLink, links_spawn (Node.buildsUnlinked_reference _ _ _) hspawn] at hlink
    split at hlink
    next =>
      rcases List.mem_append.1 hlink with hlink | hlink
      · exact .inl hlink
      · obtain rfl := List.mem_singleton.1 hlink
        refine .inr ⟨n, hn, hkind, ?_⟩
        have hsource := hl.node_of_valueOut? houtput
        rcases ends_of_validateLink hvalid with ⟨htail, -⟩ | ⟨-, hhead⟩
        · simp [Link.involves, htail, hsource]
        · simp [Link.involves, hhead, hsource]
    next => exact .inl hlink

/-- Of the value links after an edit, one may be new: the one that it asked for, or that ties a new reference to its
variable. -/
theorem mem_valueLinks_perform (hw : WellFormed g) (hl : HasLayouts g) (h : g.perform e = .ok g')
    (hlink : l ∈ g'.links .value) :
    l ∈ g.links .value ∨ RequestsLink g l e ∨ ∃ source s n, e = .reference source s ∧ g.nodeAt? source = some n ∧
      n.kind = .variable ∧ l.involves source = true := by
  have hshifted (heditMoves : EditMoves always g g') : l ∈ g.links .value := links_moves heditMoves.moves .value ▸ hlink
  cases e with
  | node | emptyInstruction | literal | declaration | function | operator | conditional =>
    exact .inl (links_create h rfl nofun .value ▸ hlink)
  | reference source s =>
    obtain ⟨⟨g₁, r⟩, hcreate, ⟨⟩⟩ := bind_eq_ok.1 h
    rcases mem_valueLinks_createReference hw hl hcreate hlink with hlink | ⟨n, hn, hkind, hinvolves⟩
    · exact .inl hlink
    · exact .inr (.inr ⟨source, s, n, rfl, hn, hkind, hinvolves⟩)
  | setValue id value =>
    rw [setValue_eq h, links_modifyNode] at hlink
    exact .inl hlink
  | setPropertyValue id name value =>
    obtain ⟨⟨found, g₁⟩, hset, ⟨⟩⟩ := bind_eq_ok.1 h
    rcases setPropertyValue_eq hset with rfl | ⟨i, rfl⟩
    · exact .inl hlink
    · rw [links_modifyNode] at hlink
      exact .inl hlink
  | connect a b sideEffects =>
    obtain ⟨⟨g₁, r⟩, hconnect, ⟨⟩⟩ := bind_eq_ok.1 h
    exact (mem_valueLinks_connect hconnect hlink).imp_right .inl
  | connectOrMerge output input =>
    obtain ⟨⟨g₁, r⟩, hconnect, ⟨⟩⟩ := bind_eq_ok.1 h
    exact (mem_valueLinks_connectOrMerge hw.toLinksScopesValid hconnect hlink).imp_right .inl
  | disconnect link sideEffects =>
    obtain ⟨⟨g₁, r⟩, hdisconnect, ⟨⟩⟩ := bind_eq_ok.1 h
    exact .inl (mem_valueLinks_disconnect hdisconnect hlink)
  | append id s =>
    obtain ⟨⟨g₁, r⟩, happend, ⟨⟩⟩ := bind_eq_ok.1 h
    exact .inl (hshifted (appendToScope_editMoves (guards_always _) happend))
  | remove id =>
    obtain ⟨⟨g₁, r⟩, hremove, ⟨⟩⟩ := bind_eq_ok.1 h
    exact .inl (hshifted (removeFromScope_editMoves hremove))
  | changeScope id s =>
    obtain ⟨⟨g₁, r⟩, hchange, ⟨⟩⟩ := bind_eq_ok.1 h
    exact .inl (hshifted (changeScope_editMoves (guards_always _) hchange))
  | transfer source target =>
    obtain ⟨⟨g₁, r⟩, htransfer, ⟨⟩⟩ := bind_eq_ok.1 h
    exact .inl (hshifted (transferChildren_editMoves (guards_always _) htransfer))
  | resetHead s => exact .inl (hshifted (.single (.lead h)))
  | destroy id sideEffects => exact .inl ((linksOfSurvivors_destroy hw.toLinksScopesValid h l).1 hlink).1
  | reset =>
    obtain ⟨g₀, hholdsNothing, -, -, hspawn⟩ := reset_eq hw.nodesListed h
    rw [hholdsNothing.links_entryPoint hspawn] at hlink
    cases hlink
  | drainEvents =>
    cases h
    exact .inl hlink

theorem kind_spawn {build : NodeId → Node} {partitions : Option Nat} {s : Option ScopeId}
    (hbuildsUnlinked : BuildsUnlinked g.config.fanIn build) (h : g.spawn build partitions s = .ok (id, g'))
    (hn : g.nodeAt? x = some n) :
    ∃ n', g'.nodeAt? x = some n' ∧ n'.kind = n.kind := by
  obtain ⟨m, ps, g₁, hnew, -, heditMoves⟩ := spawn_editMoves hbuildsUnlinked h
  have hother : x ≠ id := by
    rintro rfl
    cases hnew.fresh.symm.trans hn
  have hn₁ : g₁.nodeAt? x = some n := by rw [hnew.nodeAt?, if_neg hother, hn]
  obtain ⟨n', hn', hskeleton⟩ := heditMoves.moves.changes.allKept.node_of hn₁
  exact ⟨n', hn', (Node.of_skeleton hskeleton).1⟩

theorem kind_perform {n' : Node} (hw : WellFormed g) (h : g.perform e = .ok g') (he : e ≠ .reset)
    (hn : g.nodeAt? x = some n) (hn' : g'.nodeAt? x = some n') : n'.kind = n.kind := by
  have hlasts {g₁ : Graph} {n₁ : Node} (hlasts : SurvivorsKept g₁ g') (hn₁ : g₁.nodeAt? x = some n₁) :
      n'.kind = n₁.kind := by
    obtain ⟨m, hm, hskeleton⟩ := hlasts.node hn'
    cases hn₁.symm.trans hm
    exact (Node.of_skeleton hskeleton).1
  cases perform_effect guards_always h with
  | changes _ hchanges => exact hlasts hchanges.allKept.toSurvivorsKept hn
  | create _ hbuildsUnlinked hspawn hchanges =>
    obtain ⟨n₁, hn₁, hkind⟩ := kind_spawn hbuildsUnlinked hspawn hn
    exact (hlasts hchanges.allKept.toSurvivorsKept hn₁).trans hkind
  | block _ hbuildsUnlinked hspawn =>
    obtain ⟨n₁, hn₁, hkind⟩ := kind_spawn hbuildsUnlinked hspawn hn
    cases hn'.symm.trans hn₁
    exact hkind
  | undo hbuildsUnlinked hspawn hdestroy =>
    obtain ⟨n₁, hn₁, hkind⟩ := kind_spawn hbuildsUnlinked hspawn hn
    have hsteps : Steps always _ g' :=
      destroy_steps guards_always (hw.spawn hbuildsUnlinked hspawn).toLinksScopesValid hdestroy
    exact (hlasts hsteps.survivorsKept hn₁).trans hkind
  | destroy _ hchanges hdestroy =>
    have hsteps : Steps always _ g' := destroy_steps guards_always (hw.changes hchanges).toLinksScopesValid hdestroy
    exact hlasts (hchanges.allKept.toSurvivorsKept.trans hsteps.survivorsKept) hn
  | reset => exact (he rfl).elim
  | drain =>
    cases hn.symm.trans hn'
    rfl

theorem Reachable.referToVariables_perform (hr : Reachable g) (hg : ReferToVariables g) (h : g.perform e = .ok g') :
    ReferToVariables g' ↔ ∀ l, ¬Mislinks g g' e l := by
  have hw := hr.wellFormed
  have hr' : Reachable g' := .edit e hr h
  have hw' := hr'.wellFormed
  have hkept (he : e ≠ .reset) {x : NodeId} {n n' : Node} (hn : g.nodeAt? x = some n) (hn' : g'.nodeAt? x = some n') :
      n'.kind = n.kind := kind_perform hw h he hn hn'
  rw [referToVariables_iff hr'.hasLayouts hw'.linksMatch]
  constructor
  · rintro hall l ⟨hasked, hmade, ⟨n, hn, hreference⟩, m, hm, hother⟩
    have he : e ≠ .reset := by
      rintro rfl
      exact hasked
    obtain ⟨⟨m', hm'⟩, n', hn'⟩ := hw'.linksMatch.ends hmade
    have hhead : n'.kind = .variableRef := (hkept he (node_eq_ok_iff.1 hn) hn').trans hreference
    have htail : m'.kind = m.kind := hkept he (node_eq_ok_iff.1 hm) hm'
    exact hother (htail.symm.trans (hall l hmade n' m' hn' hhead hm'))
  · intro hnone l hlink n' m' hn' hreference hm'
    have he : e ≠ .reset := by
      rintro rfl
      obtain ⟨g₀, hholdsNothing, -, -, hspawn⟩ := reset_eq hw.nodesListed h
      have hempty : g'.links .value = [] := hholdsNothing.links_entryPoint hspawn .value
      rw [show g'.valueLinks = [] from hempty] at hlink
      cases hlink
    rcases mem_valueLinks_perform hw hr.hasLayouts h hlink with hold | hasked | ⟨source, s, n, rfl,
        hn, hvariable, hinvolves⟩
    · obtain ⟨⟨m, hm⟩, n, hn⟩ := hw.linksMatch.ends hold
      have htail := (referToVariables_iff hr.hasLayouts hw.linksMatch).1 hg l hold n m hn
          ((hkept he hn hn').symm.trans hreference) hm
      exact (hkept he hm hm').trans htail
    · obtain ⟨a, b, hvalid⟩ : ∃ a b, g.validateLink a b = .ok (.ok l) := by
        cases e with
        | connect a b _ => exact ⟨a, b, hasked⟩
        | connectOrMerge a b => exact ⟨a, b, hasked⟩
        | _ => exact hasked.elim
      obtain ⟨t, head, hlinkable⟩ := linkable_of_validateLink hvalid
      obtain ⟨m, hm, -⟩ := Option.bind_eq_some_iff.1 hlinkable.tail
      obtain ⟨n, hn, -⟩ := Option.bind_eq_some_iff.1 hlinkable.head
      by_contra hother
      refine hnone l ⟨hasked, hlink, ⟨n, node_eq_ok_iff.2 hn, (hkept he hn hn').symm.trans hreference⟩, m,
        node_eq_ok_iff.2 hm, ?_⟩
      rwa [← hkept he hm hm']
    · simp only [Link.involves, Bool.or_eq_true, beq_iff_eq] at hinvolves
      rcases hinvolves with rfl | rfl
      · exact (hkept he hn hm').trans hvariable
      · cases hreference.symm.trans ((hkept he hn hn').trans hvariable)

namespace ReferToVariables

variable (hg : ReferToVariables g) (hl : HasLayouts g) (hw : LinksMatch g) (hn : g.nodeAt? r = some n)
  (hkind : n.kind = .variableRef)

include hg hn hkind

theorem referencedVariable_cases : g.referencedVariable r = .ok none ∨
    ∃ x m, g.referencedVariable r = .ok (some x) ∧ g.node x = .ok m ∧ m.kind = .variable := by
  obtain ⟨target, htarget⟩ : ∃ target, g.referencedVariable r = .ok target := by
    rw [referencedVariable, node_eq_ok_iff.2 hn, ok_bind, if_pos hkind]
    exact ⟨_, rfl⟩
  cases target with
  | none => exact .inl htarget
  | some x =>
    obtain ⟨m, hm, hvariable⟩ := hg r x htarget
    exact .inr ⟨x, m, htarget, hm, hvariable⟩

include hl hw

theorem read_eq (memory : Memory) : g.read memory r = g.readWithin memory 2 r := by
  refine read_eq_of_readWithin hl hw hn rfl ?_
  rcases hg.referencedVariable_cases hn hkind with hnone | ⟨x, m, hpoints, hm, hvariable⟩
  · rw [referencedVariable, node_eq_ok_iff.2 hn, ok_bind, if_pos hkind, pure_eq_ok] at hnone
    rw [readWithin, node?_eq_some_iff.2 hn]
    simp only [hkind, hnone]
    rintro ⟨⟩
  · rw [readWithin_of_refersTo hpoints, readWithin, node?_eq_some_iff.2 (node_eq_ok_iff.1 hm)]
    simp only [hvariable]
    cases memory.pushed? x with
    | none => rintro ⟨⟩
    | some v => rintro ⟨⟩

omit hl hw in
theorem pushed_of_read {memory : Memory} {v : Value} (htarget : g.targetVariable r = .ok (some x))
    (hread : g.read memory r = .ok v) : (memory.pushed? x).isSome = true := by
  by_contra hnot
  obtain ⟨-, m, hm, hplain⟩ := refersToNonVariable_of_read hread htarget (Option.not_isSome_iff_eq_none.1 hnot)
  have hpoints : g.referencedVariable r = .ok (some x) := by
    rw [targetVariable, node_eq_ok_iff.2 hn, ok_bind] at htarget
    simpa only [hkind] using htarget
  obtain ⟨m', hm', hvariable⟩ := hg r x hpoints
  cases hm.symm.trans hm'
  rw [Node.isVariable, hvariable] at hplain
  cases hplain

end ReferToVariables

/-- References refer to variables, or to nothing, until one of them is linked anew to something else. Then, and only
then, they do not. While they do, a read ends after one reference, and a variable that is passed by reference through
one can be written to. -/
theorem referToVariables_perform_iff (hr : Reachable g) (hg : ReferToVariables g) :
    (∀ e g', g.perform e = .ok g' → (ReferToVariables g' ↔ ∀ l, ¬Mislinks g g' e l)) ∧
    ∀ r n, g.node r = .ok n → n.kind = .variableRef →
      (g.referencedVariable r = .ok none ∨
        ∃ x m, g.referencedVariable r = .ok (some x) ∧ g.node x = .ok m ∧ m.kind = .variable) ∧
      (∀ memory, g.read memory r = g.readWithin memory 2 r) ∧
      ∀ memory x v, g.targetVariable r = .ok (some x) → g.read memory r = .ok v → (memory.pushed? x).isSome = true := by
  refine ⟨fun e g' h => hr.referToVariables_perform hg h, fun r n hn hkind => ?_⟩
  rw [node_eq_ok_iff] at hn
  refine ⟨hg.referencedVariable_cases hn hkind, hg.read_eq hr.hasLayouts hr.wellFormed.linksMatch hn hkind, ?_⟩
  intro memory x v htarget hread
  exact hg.pushed_of_read hn hkind htarget hread

inductive ReachedWithoutMislinks : Graph → Prop
  | create {ids : IdSupply} {library : Library} {config : Config} {g : Graph} :
      create {} ids library config = .ok g → ReachedWithoutMislinks g
  | edit {g g' : Graph} (e : Edit) : ReachedWithoutMislinks g → g.perform e = .ok g' → (∀ l, ¬Mislinks g g' e l) →
      ReachedWithoutMislinks g'
  | issued {g : Graph} {ids : IdSupply} : ReachedWithoutMislinks g → g.ids.next ≤ ids.next →
      ReachedWithoutMislinks { g with ids }

namespace ReachedWithoutMislinks

theorem reachable (h : ReachedWithoutMislinks g) : Reachable g := by
  induction h with
  | create hcreate => exact .create hcreate
  | edit e _ hperform _ ih => exact .edit e ih hperform
  | issued _ hids ih => exact .issued ih hids

theorem referToVariables (h : ReachedWithoutMislinks g) : ReferToVariables g := by
  induction h with
  | create hcreate =>
    obtain ⟨g₀, hholdsNothing, -, -, hspawn⟩ := create_eq hcreate
    have hr : Reachable _ := .create hcreate
    rw [referToVariables_iff hr.hasLayouts hr.wellFormed.linksMatch]
    intro l hlink
    have hempty := hholdsNothing.links_entryPoint hspawn .value
    rw [links] at hempty
    rw [hempty] at hlink
    cases hlink
  | edit e hreachedWithoutMislinks hperform hnone ih =>
    exact (hreachedWithoutMislinks.reachable.referToVariables_perform ih hperform).2 hnone
  | issued _ _ ih => exact fun r x hx => ih r x hx

theorem foldlM {es : List Edit} (h : es.foldlM perform g = .ok g') (hg : ReachedWithoutMislinks g)
    (hplain : ∀ e ∈ es, ∀ g l, ¬RequestsLink g l e) : ReachedWithoutMislinks g' :=
  foldlM_induction h hg fun _ e he _ hreachedWithoutMislinks hperform =>
    .edit e hreachedWithoutMislinks hperform fun l hmislinks => hplain e he _ l hmislinks.asked

end ReachedWithoutMislinks

/-- Node 4 is a reference that does not refer to the variable 3 any more, and node 5 is a literal. -/
def untied : Except Fault Graph := do
  let g ← create {} {} default {}
  [.declaration .int "x" ⟨2⟩, .reference ⟨3⟩ ⟨2⟩, .disconnect ⟨⟨⟨3⟩, ⟨3⟩⟩, ⟨⟨4⟩, ⟨0⟩⟩, .value⟩ true,
    .literal (.int 7) ⟨2⟩].foldlM perform g

theorem reachedWithoutMislinks_untied (h : untied = .ok g) : ReachedWithoutMislinks g := by
  simp only [untied, bind_eq_ok] at h
  obtain ⟨g₀, hcreate, h⟩ := h
  refine .foldlM h (.create hcreate) ?_
  simp only [List.forall_mem_cons]
  exact ⟨fun _ _ => id, fun _ _ => id, fun _ _ => id, fun _ _ => id, fun _ he => nomatch he⟩

theorem untied_closed : ∃ g g' n m, untied = .ok g ∧ g.perform (.connect ⟨⟨5⟩, ⟨0⟩⟩ ⟨⟨4⟩, ⟨0⟩⟩ true) = .ok g' ∧
    g'.node ⟨4⟩ = .ok n ∧ n.kind = .variableRef ∧ g'.referencedVariable ⟨4⟩ = .ok (some ⟨5⟩) ∧
    g'.node ⟨5⟩ = .ok m ∧ m.kind = .literal := by
  obtain ⟨u, h⟩ := exists_of_isOk (x := do
    let g ← untied
    let g' ← g.perform (.connect ⟨⟨5⟩, ⟨0⟩⟩ ⟨⟨4⟩, ⟨0⟩⟩ true)
    let n ← g'.node ⟨4⟩
    let x ← g'.referencedVariable ⟨4⟩
    let m ← g'.node ⟨5⟩
    if ¬(n.kind = .variableRef ∧ x = some ⟨5⟩ ∧ m.kind = .literal) then throw .endless) (by decide +kernel)
  simp only [bind_eq_ok] at h
  obtain ⟨g, hg, g', hg', n, hn, x, hx, m, hm, h⟩ := h
  split at h
  next => cases h
  next hfacts =>
    obtain ⟨hn', rfl, hm'⟩ := not_not.1 hfacts
    exact ⟨g, g', n, m, hg, hg', hn, hn', hx, hm, hm'⟩

theorem mislinks_untied : ∃ g g' l, untied = .ok g ∧ Reachable g ∧ ReferToVariables g ∧
    g.perform (.connect ⟨⟨5⟩, ⟨0⟩⟩ ⟨⟨4⟩, ⟨0⟩⟩ true) = .ok g' ∧
    Mislinks g g' (.connect ⟨⟨5⟩, ⟨0⟩⟩ ⟨⟨4⟩, ⟨0⟩⟩ true) l := by
  obtain ⟨g, g', n, m, hg, hperform, -, -, hx, hm, hliteral⟩ := untied_closed
  have hreached := reachedWithoutMislinks_untied hg
  by_contra hnone
  have hreferToVariables : ReferToVariables g' :=
    ((referToVariables_perform_iff hreached.reachable hreached.referToVariables).1 _ g' hperform).2 fun l hmislinks =>
      hnone ⟨g, g', l, hg, hreached.reachable, hreached.referToVariables, hperform, hmislinks⟩
  obtain ⟨m', hm', hvariable⟩ := hreferToVariables _ _ hx
  cases hm.symm.trans hm'
  cases hliteral.symm.trans hvariable

/-- A reference can refer to a node that is no variable. -/
theorem not_referToVariables_untied : ¬∀ g, Reachable g → ReferToVariables g := by
  intro hall
  obtain ⟨g, g', n, m, hg, hperform, -, -, hx, hm, hliteral⟩ := untied_closed
  obtain ⟨m', hm', hvariable⟩ := hall g' (.edit _ (reachedWithoutMislinks_untied hg).reachable hperform) _ _ hx
  cases hm.symm.trans hm'
  cases hliteral.symm.trans hvariable

end Graph

end FlowGraph
