import FlowGraph.Proofs.Arena.Reversal
import FlowGraph.Proofs.Literals

/-!
# Refused edits

An edit that is refused leaves the graph as it was. A refusal comes before the first change, but for the one of a
reference whose variable has no room: the reference is there by then, in its scope, and is destroyed again. Of that, the
events tell, and its identifier is used up.
-/

namespace FlowGraph

theorem Scope.forget_addChild {sc : Scope} {id : NodeId} (hchild : id ∉ sc.children) (hdeclared : id ∉ sc.declared)
    (hhead : sc.head ≠ some id) : (sc.addChild id).forget id = sc := by
  have hkept {ids : List NodeId} (hid : id ∉ ids) : ids.filter (· != id) = ids := by
    rw [List.filter_eq_self]
    intro c hc
    rw [bne_iff_ne]
    rintro rfl
    exact hid hc
  have hnew : [id].filter (· != id) = [] := by simp
  have hlead : (if (sc.addChild id).head = some id then none else (sc.addChild id).head) = sc.head := if_neg hhead
  rw [forget, hlead]
  simp only [addChild, List.filter_append, hkept hchild, hkept hdeclared, hnew, List.append_nil]

theorem Node.noInputsNorSuccessor_of_unlinked {n : Node} (h : ∀ slot ∈ n.slots, slot.adjacent = []) :
    n.NoInputsNorSuccessor where
  inputs := by
    have hnone : ∀ slot ∈ n.filterSlots .input, slot.adjacent.map (·.node) = [] := fun slot hslot => by
      rw [h slot (List.mem_filter.1 hslot).1, List.map_nil]
    rw [inputs, adjacentNodes, List.flatMap_eq_nil_iff.2 hnone, List.eraseDups_nil]
  successor := by
    rw [successor?]
    cases hnext : n.nextSlot? with
    | none => rfl
    | some slot =>
      have hslot : slot ∈ n.slots := (List.mem_filter.1 (List.mem_of_find?_eq_some hnext)).1
      rw [Option.bind_some, Slot.first?, h slot hslot]
      rfl

namespace Graph

variable {g g' : Graph} {id : NodeId} {s : ScopeId}

theorem live_of_insert (h : g.insertIntoScope id s = .ok g') : ∃ sc, g.scopeAt? s = some sc := by
  simp only [insertIntoScope, depthBound, insertWithin, enter, bind_eq_ok, scope_eq_ok_iff] at h
  obtain ⟨entered, ⟨n, -, sc, hsc, -⟩, -⟩ := h
  exact ⟨sc, hsc⟩

theorem LinksMatch.not_involves_of_missing (hw : LinksMatch g) (hn : g.nodeAt? id = none) {k : SlotKind} {l : Link}
    (hl : l ∈ g.links k) : l.involves id = false := by
  obtain ⟨-, -, out, inp, hout, hinp, -⟩ := hw.joined hl
  have hother {r : SlotRef} {slot : Slot} (hslot : g.slotAt? r = some slot) : r.node ≠ id := by
    rintro rfl
    rw [slotAt?, hn] at hslot
    cases hslot
  simp [Link.involves, hother hout, hother hinp]

theorem rootIsEntryPoint_kind (h : RootIsEntryPoint g) : Element.node ∈ g.arena.stores.map (·.kind) := by
  obtain ⟨n, hn, -⟩ := h
  obtain ⟨r, hr⟩ := Arena.lookup?_eq_some_iff.1 (Arena.item?_eq_some_iff.1 hn)
  exact Arena.kind_mem_of_entryAt hr

def passing (id : NodeId) (s : ScopeId) : List Event :=
  [.nodeAdded id, .nodeScoped id (some s), .nodeScoped id none, .nodeRemoved id]

theorem destroy_of_unlinked {n : Node} {sc : Scope} (hh : ScopesMatchNodes g) (hroot : id ≠ g.root)
    (hn : g.nodeAt? id = some n) (hfree : ∀ slot ∈ n.slots, slot.adjacent = []) (hvar : n.isVariable = false)
    (hinternal : n.internalScope = none) (hscope : n.scope = some s) (hsc : g.scopeAt? s = some sc)
    (hlinks : (g.valueLinks ++ g.flowLinks).filter (·.involves id) = []) (h : g.destroy id false = .ok g') :
    g' = ((g.displace id s).emit (.nodeScoped id none)).erase id := by
  have hremove : g.remove id [] = .ok g' := (destroy_scopeless h hn hinternal).resolve_left fun hkept => hroot hkept.1
  have hdetach := detach_of_noInputsNorSuccessor hh hn (Node.noInputsNorSuccessor_of_unlinked hfree) hvar hsc
  simp only [remove, hlinks, List.foldlM_nil, pure_bind, node_eq_ok_iff.2 hn, ok_bind, hscope, hdetach] at hremove
  exact (Except.ok.inj hremove).symm

def sprout (g : Graph) (id : NodeId) (n : Node) (fresh : id.raw ∉ g.arena.records) : Graph :=
  Graph.enlist { g with arena := g.arena.insert id.raw .node n fresh, ids := ⟨id.raw + 1⟩ } id

theorem spawn_alone {build : NodeId → Node} (hfree : ∀ slot ∈ (build id).slots, slot.adjacent = [])
    (hvar : (build id).isVariable = false) (h : g.spawn build none (some s) = .ok (id, g')) :
    ∃ (fresh : id.raw ∉ g.arena.records) (sc : Scope), g.scopeAt? s = some sc ∧ id.raw = g.ids.next ∧
      (g.sprout id (build id) fresh).nodeAt? id = some (build id) ∧
      (g.sprout id (build id) fresh).scopeAt? s = some sc ∧
      g' = ((g.sprout id (build id) fresh).place id s).emit (.nodeScoped id (some s)) := by
  obtain ⟨g₁, g₂, hid, ⟨-, rfl⟩ | ⟨_, ⟨⟩, -⟩, ⟨⟨⟩, -⟩ | ⟨t, ⟨⟩, hinsert⟩⟩ := spawn_steps h
  obtain ⟨-, hnodes, hscopes, -, hraw, -⟩ := allocate_eq hid
  obtain ⟨fresh, -, rfl⟩ := allocate_insert hid
  obtain ⟨sc, hsc⟩ := live_of_insert hinsert
  have hn : (g.sprout id (build id) fresh).nodeAt? id = some (build id) := (hnodes id).trans (if_pos rfl)
  refine ⟨fresh, sc, (hscopes .scope (by decide) s).symm.trans hsc, hraw, hn, hsc, ?_⟩
  exact Except.ok.inj
    (hinsert.symm.trans (insertIntoScope_of_noInputsNorSuccessor hn
      (Node.noInputsNorSuccessor_of_unlinked hfree) hvar hsc))

theorem erase_displace_place (h : WellFormed g) {n : Node} (fresh : id.raw ∉ g.arena.records) {sc : Scope}
    (hsc : g.scopeAt? s = some sc) (hids : id.raw = g.ids.next) :
    (((((g.sprout id n fresh).place id s).emit (.nodeScoped id (some s))).displace id s).emit
        (.nodeScoped id none)).erase id =
      { g with ids := ⟨id.raw + 1⟩, events := g.events ++ passing id s } := by
  have hgone : g.nodeAt? id = none := Arena.item?_eq_none_of_fresh fresh
  have hother : id.raw ≠ s.raw := by
    have hlt := h.idsIssued.scope hsc
    omega
  have hscopeMatches := h.scopesMatchNodes.scopeMatchesNodes hsc
  have hchild : id ∉ sc.children := fun hmem => by
    obtain ⟨n, hn, -⟩ := hscopeMatches.child id hmem
    cases hgone.symm.trans hn
  have hback : (sc.addChild id).forget id = sc :=
    Scope.forget_addChild hchild (fun hmem => hchild (hscopeMatches.declared id hmem).1) fun hhead =>
      hchild (hscopeMatches.head id hhead)
  have hplaced := (Arena.oneMore_insert (rootIsEntryPoint_kind h.rootIsEntryPoint) n fresh).update_self fresh
    fun n : Node => { n with scope := some s }
  have hlisted := hplaced.update_other hother fun sc : Scope => sc.addChild id
  have hleft := hlisted.update_self (mt Arena.mem_records_update.1 fresh) fun n : Node => { n with scope := none }
  have hforgotten := hleft.update_other hother fun sc : Scope => sc.forget id
  have harena := hforgotten.erase.trans (Arena.update_update hsc hback)
  have hnodes : (g.nodes ++ [id]).filter (· != id) = g.nodes := by
    have hkept : ∀ x ∈ g.nodes, (x != id) = true := fun x hx => by
      rw [bne_iff_ne]
      rintro rfl
      rw [h.nodesListed.mem_nodes_iff, hgone] at hx
      cases hx
    rw [List.filter_append, List.filter_eq_self.2 hkept]
    simp
  simp only [Graph.erase, Graph.emit, displace, place, sprout, enlist, modifyNode, modifyScope]
  congr 1
  simp [passing]

/-- A node that is created and destroyed again leaves nothing but its events behind. -/
theorem WellFormed.destroy_spawn (h : WellFormed g) {build : NodeId → Node}
    (hbuildsUnlinked : BuildsUnlinked g.config.fanIn build) (hvar : ∀ id, (build id).isVariable = false)
    (hspawn : g.spawn build none (some s) = .ok (id, g')) {g'' : Graph} (hdestroy : g'.destroy id false = .ok g'') :
    g'' = { g with ids := ⟨id.raw + 1⟩, events := g.events ++ passing id s } := by
  have hwellFormed := h.spawn hbuildsUnlinked hspawn
  have hfree : ∀ slot ∈ (build id).slots, slot.adjacent = [] :=
    fun slot hslot => (hbuildsUnlinked.slots id slot hslot).adjacent
  obtain ⟨fresh, sc, hsc, hraw, hn, hsc', rfl⟩ := spawn_alone hfree (hvar id) hspawn
  have hgone : g.nodeAt? id = none := Arena.item?_eq_none_of_fresh fresh
  have hn' : (((g.sprout id (build id) fresh).place id s).emit (.nodeScoped id (some s))).nodeAt? id =
      some { build id with scope := some s } := nodeAt?_place_self hn
  have hsc'' : (((g.sprout id (build id) fresh).place id s).emit (.nodeScoped id (some s))).scopeAt? s =
      some (sc.addChild id) := scopeAt?_place_self hsc'
  have hlinks : (g.valueLinks ++ g.flowLinks).filter (·.involves id) = [] := by
    rw [List.filter_eq_nil_iff]
    intro l hl
    rw [Bool.not_eq_true]
    rcases List.mem_append.1 hl with hl | hl
    · exact h.linksMatch.not_involves_of_missing hgone (k := .value) hl
    · exact h.linksMatch.not_involves_of_missing hgone (k := .flow) hl
  have hroot : id ≠ g.root := by
    rintro rfl
    obtain ⟨root, hr, -⟩ := h.rootIsEntryPoint
    cases hgone.symm.trans hr
  rw [destroy_of_unlinked hwellFormed.scopesMatchNodes hroot hn' hfree (hvar id)
    (hbuildsUnlinked.internalScope id) rfl hsc'' hlinks hdestroy]
  exact erase_displace_place h fresh hsc hraw

theorem eq_of_appendToScope_error {e : ScopeError} (h : g.appendToScope id s = .ok (g', .error e)) : g' = g := by
  simp only [appendToScope, bind_eq_ok] at h
  obtain ⟨n, -, h⟩ := h
  cases hscope : n.scope with
  | some current =>
    rw [hscope] at h
    cases h
    rfl
  | none =>
    rw [hscope] at h
    obtain ⟨refused, -, h⟩ := bind_eq_ok.1 h
    cases refused with
    | some e' =>
      cases h
      rfl
    | none =>
      obtain ⟨inserted, -, h⟩ := bind_eq_ok.1 h
      cases h

theorem eq_of_removeFromScope_error {e : ScopeError} (h : g.removeFromScope id = .ok (g', .error e)) : g' = g := by
  simp only [removeFromScope, bind_eq_ok] at h
  obtain ⟨n, -, h⟩ := h
  cases hscope : n.scope with
  | none =>
    rw [hscope] at h
    cases h
    rfl
  | some current =>
    rw [hscope] at h
    obtain ⟨left, -, h⟩ := bind_eq_ok.1 h
    cases h

theorem eq_of_changeScope_error {e : ScopeError} (h : g.changeScope id s = .ok (g', .error e)) : g' = g := by
  simp only [changeScope, bind_eq_ok] at h
  obtain ⟨n, -, h⟩ := h
  split at h
  next => cases h
  next =>
    obtain ⟨refused, -, h⟩ := bind_eq_ok.1 h
    cases refused with
    | some e' =>
      cases h
      rfl
    | none =>
      dsimp only at h
      split at h <;>
        obtain ⟨left, -, h⟩ := bind_eq_ok.1 h <;>
        obtain ⟨inserted, -, h⟩ := bind_eq_ok.1 h <;>
        cases h

theorem eq_of_disconnect_error {link : Link} {sideEffects : Bool} {e : ConnectError}
    (h : g.disconnect link sideEffects = .ok (g', .error e)) : g' = g := by
  simp only [disconnect] at h
  split at h
  next =>
    cases h
    rfl
  next =>
    split at h
    next => cases h
    next =>
      obtain ⟨after, -, h⟩ := bind_eq_ok.1 h
      cases h
    next =>
      obtain ⟨after, -, h⟩ := bind_eq_ok.1 h
      cases h

theorem eq_of_connectOrMerge_error {output input : SlotRef} {e : ConnectError}
    (h : g.connectOrMerge output input = .ok (g', .error e)) : g' = g := by
  rcases connectOrMerge_eq h with ⟨linked, hconnect, hr⟩ | ⟨rfl, -⟩ | ⟨i, value, -, ⟨⟩⟩
  · cases linked with
    | ok l => cases hr
    | error e' => exact eq_of_connect_error hconnect
  · rfl

theorem WellFormed.createReference_error (hw : WellFormed g) {source : NodeId} {e : ConnectError}
    (h : g.createReference source s = .ok (g', .error e)) :
    g' = g ∨ ∃ id, g' = { g with ids := ⟨id.raw + 1⟩, events := g.events ++ passing id s } := by
  simp only [createReference, bind_eq_ok] at h
  obtain ⟨target, -, h⟩ := h
  cases target with
  | none =>
    cases h
    exact .inl rfl
  | some target =>
    simp only at h
    split at h
    next =>
      cases h
      exact .inl rfl
    next =>
      obtain ⟨output, -, h⟩ := bind_eq_ok.1 h
      cases output with
      | none =>
        cases h
        exact .inl rfl
      | some output =>
        simp only [bind_eq_ok] at h
        obtain ⟨⟨id, g₁⟩, hspawn, ⟨g₂, linked⟩, hconnect, h⟩ := h
        cases linked with
        | ok _ => cases h
        | error e' =>
          simp only [bind_eq_ok] at h
          obtain ⟨g₃, hdestroy, h⟩ := h
          cases h
          obtain rfl := eq_of_connect_error hconnect
          exact .inr ⟨id, hw.destroy_spawn (Node.buildsUnlinked_reference _ _ _) (fun _ => rfl) hspawn hdestroy⟩

/-- Every refused edit leaves the graph as it was. A refused reference uses up its identifier and is told of. -/
theorem Reachable.unchanged_of_refused (hr : Reachable g) :
    (∀ {a b sideEffects e g'}, g.connect a b sideEffects = .ok (g', .error e) → g' = g) ∧
    (∀ {output input e g'}, g.connectOrMerge output input = .ok (g', .error e) → g' = g) ∧
    (∀ {link sideEffects e g'}, g.disconnect link sideEffects = .ok (g', .error e) → g' = g) ∧
    (∀ {id s e g'}, g.appendToScope id s = .ok (g', .error e) → g' = g) ∧
    (∀ {id e g'}, g.removeFromScope id = .ok (g', .error e) → g' = g) ∧
    (∀ {id s e g'}, g.changeScope id s = .ok (g', .error e) → g' = g) ∧
    (∀ {source s e g'}, g.createReference source s = .ok (g', .error e) →
      ∃ ids noted, g' = { g with ids, events := g.events ++ noted }) := by
  refine ⟨eq_of_connect_error, eq_of_connectOrMerge_error, eq_of_disconnect_error, eq_of_appendToScope_error,
    eq_of_removeFromScope_error, eq_of_changeScope_error, fun h => ?_⟩
  rcases hr.wellFormed.createReference_error h with rfl | ⟨id, rfl⟩
  · exact ⟨_, [], by rw [List.append_nil]⟩
  · exact ⟨_, _, rfl⟩

/-- The variable 3 has room for one reader, and one is there. -/
def crowded : Except Fault Graph := do
  let g ← create {} {} default { fanIn := 1 }
  let s ← g.rootScope
  [.declaration .int "x" s, .reference ⟨3⟩ s].foldlM perform g

theorem crowded_reachable (h : crowded = .ok g) : Reachable g := by
  simp only [crowded, bind_eq_ok] at h
  obtain ⟨g₀, hcreate, s, -, h⟩ := h
  exact (Reachable.create hcreate).edits h

/-- A second reference is created, has no room and is destroyed. The variable itself is already where it is to go. -/
theorem unchanged_of_refused_crowded : ∃ g g', crowded = .ok g ∧ Reachable g ∧
    g.createReference ⟨3⟩ ⟨2⟩ = .ok (g', .error (.slotFull ⟨⟨3⟩, ⟨3⟩⟩)) ∧
    g'.events.length = g.events.length + 4 ∧
    (∃ ids noted, g' = { g with ids, events := g.events ++ noted }) ∧
    g.appendToScope ⟨3⟩ ⟨2⟩ = .ok (g, .error (.alreadyScoped ⟨3⟩ ⟨2⟩)) := by
  obtain ⟨g, hg⟩ := exists_of_isOk (x := crowded) (by decide +kernel)
  have hfacts := eq_ok_of_toOption_bind (fun g => do
    let (after, refused) ← g.createReference ⟨3⟩ ⟨2⟩
    let (_, stayed) ← g.appendToScope ⟨3⟩ ⟨2⟩
    return (refused, stayed, after.events.length - g.events.length, g.events.length)) hg
    (b := (.error (.slotFull ⟨⟨3⟩, ⟨3⟩⟩), .error (.alreadyScoped ⟨3⟩ ⟨2⟩), 4, 6)) (by decide +kernel)
  simp only [bind_eq_ok, pure_eq_ok, Prod.mk.injEq] at hfacts
  obtain ⟨⟨g', _⟩, hrefused, ⟨same, _⟩, hstayed, rfl, rfl, hmore, hbefore⟩ := hfacts
  obtain ⟨-, -, -, hsame, -, -, hleft⟩ := (crowded_reachable hg).unchanged_of_refused
  cases hsame hstayed
  dsimp only at hmore
  exact ⟨g, g', hg, crowded_reachable hg, hrefused, by omega, hleft hrefused, hstayed⟩

end Graph

end FlowGraph
