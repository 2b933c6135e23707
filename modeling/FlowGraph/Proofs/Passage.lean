import FlowGraph.Proofs.Paths
import FlowGraph.Proofs.Transfer
import FlowGraph.Proofs.Walks

/-!
# Nodes on the move

Leaving and entering terminate, however the nodes are linked: a node that the walk is still busy with has left the scope,
or has entered it, and is not taken up again. So it is the nodes that go along, and they alone, that change their scope.
-/

namespace FlowGraph.Graph

variable {g g' : Graph} {well : Prop} {id x y : NodeId} {s t : ScopeId} {n : Node} {k : Nat} {above : List NodeId}

theorem node_of_companion (hw : LinksMatch g) (h : Companion g x y) : ∃ m, g.nodeAt? y = some m := by
  obtain ⟨n, hn, hsuccessor | ⟨-, m, hm, -⟩⟩ := h
  · obtain ⟨r, hr, rfl⟩ := Option.map_eq_some_iff.1 hsuccessor
    obtain ⟨slot, hslot, hr⟩ := Option.bind_eq_some_iff.1 hr
    have hmem := (List.mem_filter.1 (List.mem_of_find?_eq_some hslot)).1
    exact node_of_slot hw hn hmem (List.mem_of_mem_head? hr)
  · exact ⟨m, hm⟩

theorem node_of_inputs (hw : LinksMatch g) (hn : g.nodeAt? id = some n) (hx : x ∈ n.inputs) :
    ∃ m, g.nodeAt? x = some m := by
  obtain ⟨slot, hslot, r, hr, rfl⟩ := Node.mem_inputs.1 hx
  exact node_of_slot hw hn (List.mem_filter.1 hslot).1 hr

/-- Nothing of a walk in progress is met again, so there are fewer nodes in it than there are. -/
theorem not_walking (hnodup : above.Nodup) (hlive : AllLive g above) (hn : g.nodeAt? id = some n) (hid : id ∉ above)
    (hk : g.depthBound ≤ above.length) : False := by
  have hlt := length_lt_depthBound (List.nodup_cons.2 ⟨hid, hnodup⟩) (List.forall_mem_cons.2 ⟨⟨n, hn⟩, hlive⟩)
  rw [List.length_cons] at hlt
  omega

namespace SameLinkage

theorem depthBound_le (h : SameLinkage g g') : g'.depthBound ≤ g.depthBound := by
  refine Graph.depthBound_le fun x hx => ?_
  obtain ⟨m, hm⟩ := Option.isSome_iff_exists.1 hx
  obtain ⟨m', hm', -⟩ := h.symm.node hm
  exact Option.isSome_of_mem hm'

theorem allLive (h : SameLinkage g g') (hlive : AllLive g above) : AllLive g' above := by
  intro x hx
  obtain ⟨m, hm⟩ := hlive x hx
  obtain ⟨m', hm', -⟩ := h.node hm
  exact ⟨m', hm'⟩

theorem linked (h : SameLinkage g g') (hlinked : ∀ x y, well → Companion g x y → ∃ m, g.nodeAt? y = some m)
    (x y : NodeId) (hw : well) (hxy : Companion g' x y) : ∃ m, g'.nodeAt? y = some m := by
  obtain ⟨m, hm⟩ := hlinked x y hw (h.companion_iff.1 hxy)
  obtain ⟨m', hm', -⟩ := h.node hm
  exact ⟨m', hm'⟩

theorem exits (h : Exits s g g') : SameLinkage g g' := by
  induction h with
  | refl => exact .rfl
  | tail _ hleaves ih =>
    obtain ⟨-, -, hleave⟩ := hleaves
    exact ih.trans (.leave hleave)

theorem entries {may : Graph → NodeId → ScopeId → Prop} (h : Entries may t g g') : SameLinkage g g' := by
  induction h with
  | refl => exact .rfl
  | tail _ henters ih =>
    obtain ⟨-, -, -, henter⟩ := henters
    exact ih.trans (.enter henter)

end SameLinkage

theorem Exits.kept (h : Exits s g g') (hx : g.homeAt? x ≠ some s) : g'.homeAt? x ≠ some s := by
  induction h with
  | refl => exact hx
  | tail _ hleaves ih =>
    obtain ⟨-, -, hleave⟩ := hleaves
    rw [(leave_views hleave).2]
    split
    next => rintro ⟨⟩
    next => exact ih

theorem Entries.kept {may : Graph → NodeId → ScopeId → Prop} (h : Entries may t g g') (hx : g.homeAt? x ≠ none) :
    g'.homeAt? x ≠ none := by
  induction h with
  | refl => exact hx
  | tail _ henters ih =>
    obtain ⟨hn, -, -, henter⟩ := henters
    rw [(enter_views henter hn).2]
    split
    next => rintro ⟨⟩
    next => exact ih

theorem declareUnlessInSight_moves {name : String} (h : declareUnlessInSight name s g x = .ok g')
    (hh : ScopesMatchNodes g) (hn : g.nodeAt? x = some n) (hs : n.scope = some s) (hvar : n.isVariable = true)
    (hname : n.name = name) (hlive : ∃ sc, g.scopeAt? s = some sc) : Moves never g g' := by
  obtain ⟨sc, hsc⟩ := hlive
  obtain ⟨found, hfound, h⟩ := bind_eq_ok.1 h
  cases found with
  | some w =>
    obtain rfl := pure_eq_ok.1 h
    exact .refl
  | none =>
    obtain rfl := pure_eq_ok.1 h
    exact .single (.declare hsc (hh.listed hn hs hsc) hn hvar (hname ▸ hfound))

theorem nodeAt?_declareUnlessInSight {name : String} (h : declareUnlessInSight name s g x = .ok g') (y : NodeId) :
    g'.nodeAt? y = g.nodeAt? y := by
  obtain ⟨found, -, h⟩ := bind_eq_ok.1 h
  cases found with
  | some w =>
    obtain rfl := pure_eq_ok.1 h
    rfl
  | none =>
    obtain rfl := pure_eq_ok.1 h
    exact nodeAt?_modifyScope ..

namespace EditInvariant

theorem companions (h : EditInvariant well g) (hn : g.nodeAt? id = some n) : Terminates well (g.companions id) := by
  refine .bind (.of_ok (node_eq_ok_iff.2 hn)) fun _ hn' => ?_
  obtain rfl := Except.ok.inj ((node_eq_ok_iff.2 hn).symm.trans hn')
  refine .bind (.filterM fun i hi => ?_) fun _ _ => .pure _
  obtain ⟨m, hm⟩ := node_of_inputs h.wellFormed.linksMatch hn hi
  exact .bind (.of_ok (node_eq_ok_iff.2 hm)) fun _ _ => .pure _

theorem enter (h : EditInvariant well g) (hn : g.nodeAt? id = some n) (hnone : n.scope = none) (hclear : clear g id t) :
    Terminates well (g.enter id t) := by
  obtain ⟨sc, hsc⟩ := hclear.live
  have hplaced : EditInvariant well (g.place id t) := h.moves (.single (.enter hn hnone hsc hclear))
  have hsc' : ∃ sc', (g.place id t).scopeAt? t = some sc' := ⟨_, scopeAt?_place_self hsc⟩
  simp only [Graph.enter, node_eq_ok_iff.2 hn, scope_eq_ok_iff.2 hsc, ok_bind]
  split
  next =>
    refine .bind (hplaced.findVariable (fun _ => hsc') n.name) fun found _ => ?_
    cases found with
    | some w => exact .pure _
    | none => exact .pure _
  next => exact .pure _

theorem live_of_mem_below (h : EditInvariant well g) {inner : List ScopeId}
    (hinner : g.below (.error .endless) k s = .ok inner) (ht : t ∈ inner) : ∃ sc, g.scopeAt? t = some sc := by
  induction k generalizing s inner with
  | zero => cases hinner
  | succ k ih =>
    simp only [below, bind_eq_ok, pure_eq_ok] at hinner
    obtain ⟨children, hchildren, lists, hlists, rfl⟩ := hinner
    obtain ⟨l, hl, ht⟩ := List.mem_flatten.1 ht
    obtain ⟨c, hc, hdown⟩ := of_mem_mapM hlists hl
    obtain ⟨nested, hnested, ⟨⟩⟩ := bind_eq_ok.1 hdown
    rcases List.mem_cons.1 ht with rfl | ht
    · obtain ⟨sc, hsc, -⟩ := parentScope?_eq_ok_iff.1 (h.parent_of_mem_childScopes hchildren hc)
      exact ⟨sc, hsc⟩
    · exact ih hnested ht

theorem undeclared (h : EditInvariant well g) (hs : ∃ sc, g.scopeAt? s = some sc) (name : String) :
    Terminates well (g.undeclared s name) := by
  obtain ⟨sc, hsc⟩ := hs
  refine .bind (.of_ok (scope_eq_ok_iff.2 hsc)) fun _ hsc' => ?_
  obtain rfl := Except.ok.inj ((scope_eq_ok_iff.2 hsc).symm.trans hsc')
  refine .filterM fun c hc => ?_
  obtain ⟨m, hm, -⟩ := (h.wellFormed.scopesMatchNodes.scopeMatchesNodes hsc).child c hc
  exact .bind (.of_ok (node_eq_ok_iff.2 hm)) fun _ _ => .pure _

end EditInvariant

theorem ScopesMatchNodes.of_mem_undeclared {name : String} {vs : List NodeId} (hh : ScopesMatchNodes g)
    (h : g.undeclared s name = .ok vs) (hx : x ∈ vs) :
    ∃ n, g.nodeAt? x = some n ∧ n.scope = some s ∧ n.isVariable = true ∧ n.name = name := by
  obtain ⟨sc, hsc, hvs⟩ := bind_eq_ok.1 h
  obtain ⟨hchild, hx⟩ := of_mem_filterM hvs hx
  simp only [bind_eq_ok, node_eq_ok_iff, pure_eq_ok, Bool.and_eq_true, beq_iff_eq] at hx
  obtain ⟨n, hn, ⟨hvar, hname⟩, -⟩ := hx
  obtain ⟨n', hn', hscope⟩ := (hh.scopeMatchesNodes (scope_eq_ok_iff.1 hsc)).child x hchild
  cases hn.symm.trans hn'
  exact ⟨n, hn, hscope, hvar, hname⟩

structure DeclaresSome (well : Prop) (g g' : Graph) : Prop where
  editInvariant : EditInvariant well g'
  allKept : AllKept g g'
  nodes (x : NodeId) : g'.nodeAt? x = g.nodeAt? x

theorem DeclaresSome.next {g₁ : Graph} {name : String} {vs : List NodeId} (h : DeclaresSome well g g₁)
    (hh : ScopesMatchNodes g) (hs : ∃ sc, g.scopeAt? s = some sc) (hvs : g.undeclared s name = .ok vs) (hx : x ∈ vs) :
    Terminates well (declareUnlessInSight name s g₁ x) ∧
      ∀ g₂, declareUnlessInSight name s g₁ x = .ok g₂ → DeclaresSome well g g₂ := by
  obtain ⟨sc, hsc⟩ := hs
  obtain ⟨sc₁, hsc₁, -⟩ := h.allKept.scope_of hsc
  obtain ⟨n, hn, hscope, hvar, hname⟩ := hh.of_mem_undeclared hvs hx
  constructor
  · refine .bind (h.editInvariant.findVariable (fun _ => ⟨sc₁, hsc₁⟩) name) fun found _ => ?_
    cases found with
    | some w => exact .pure _
    | none => exact .pure _
  · intro g₂ hg₂
    have hmoves := declareUnlessInSight_moves hg₂ h.editInvariant.wellFormed.scopesMatchNodes
        ((h.nodes x).trans hn) hscope hvar hname ⟨sc₁, hsc₁⟩
    exact ⟨h.editInvariant.moves hmoves.of_never, h.allKept.trans hmoves.changes.allKept,
      fun y => (nodeAt?_declareUnlessInSight hg₂ y).trans (h.nodes y)⟩

namespace EditInvariant

theorem declareShadowed (h : EditInvariant well g) (hs : ∃ sc, g.scopeAt? s = some sc) (name : String) :
    Terminates well (g.declareShadowed s name) := by
  refine .bind (h.descendants fun _ => hs) fun nested hnested => ?_
  have hlive (t : ScopeId) (ht : t ∈ nested) : ∃ sc, g.scopeAt? t = some sc := by
    obtain ⟨inner, hinner, hself⟩ := bind_eq_ok.1 hnested
    obtain rfl : s :: inner = nested := pure_eq_ok.1 hself
    rcases List.mem_cons.1 ht with rfl | ht
    · exact hs
    · exact h.live_of_mem_below hinner ht
  refine .foldlM (P := fun g₁ => EditInvariant well g₁ ∧ AllKept g g₁) ⟨h, .refl g⟩ ?_
  rintro g₁ t ht ⟨h₁, hallKept⟩
  obtain ⟨sc, hsc⟩ := hlive t ht
  obtain ⟨sc₁, hsc₁, -⟩ := hallKept.scope_of hsc
  have hstart : DeclaresSome well g₁ g₁ := ⟨h₁, .refl g₁, fun _ => rfl⟩
  have hnext {vs : List NodeId} (hvs : g₁.undeclared t name = .ok vs) (g₂ : Graph) (v : NodeId) (hv : v ∈ vs)
      (h₂ : DeclaresSome well g₁ g₂) := h₂.next h₁.wellFormed.scopesMatchNodes ⟨sc₁, hsc₁⟩ hvs hv
  refine ⟨.bind (h₁.undeclared ⟨sc₁, hsc₁⟩ name) fun vs hvs => .foldlM hstart (hnext hvs), fun g₂ hg₂ => ?_⟩
  obtain ⟨vs, hvs, hg₂⟩ := bind_eq_ok.1 hg₂
  have h₂ : DeclaresSome well g₁ g₂ := foldlM_induction hg₂ hstart fun g₂ v hv g₃ h₂ => (hnext hvs g₂ v hv h₂).2 g₃
  exact ⟨h₂.editInvariant, hallKept.trans h₂.allKept⟩

theorem leave (h : EditInvariant well g) (hn : g.nodeAt? id = some n) (hs : n.scope = some s) :
    Terminates well (g.leave id s) := by
  have hhome : g.homeAt? id = some s := homeAt?_eq_some_iff.2 ⟨n, hn, hs⟩
  simp only [Graph.leave, node_eq_ok_iff.2 hn, ok_bind]
  refine .bind (terminates_scope fun hw => h.live_of_home hw hhome) fun sc hsc => ?_
  have hsc := scope_eq_ok_iff.1 hsc
  have hdisplaced : EditInvariant well (g.displace id s) := h.moves (.single (.leave hn hs hsc))
  split
  next =>
    exact .bind (hdisplaced.declareShadowed ⟨_, scopeAt?_displace_self hsc⟩ n.name) fun _ _ => .pure _
  next => exact .pure _

end EditInvariant

/-- A walk out of a scope is busy with nodes that have left it. It concludes on any graph where each node of it can be
looked at and leave. -/
theorem detachWithin_terminates (above : List NodeId)
    (hleave : ∀ g₁ x, Exits s g g₁ → g₁.homeAt? x = some s → Terminates well (g₁.leave x s))
    (hcompanions : ∀ g₁ x m, Exits s g g₁ → g₁.nodeAt? x = some m → Terminates well (g₁.companions x))
    (hlinked : ∀ x y, well → Companion g x y → ∃ m, g.nodeAt? y = some m) (hid : g.homeAt? id = some s)
    (hk : g.depthBound ≤ above.length + k) (hnodup : above.Nodup) (hlive : AllLive g above)
    (hleft : ∀ x ∈ above, g.homeAt? x ≠ some s) : Terminates well (detachWithin k g id s) := by
  obtain ⟨n, hn, hs⟩ := homeAt?_eq_some_iff.1 hid
  have hnew : id ∉ above := fun hmem => hleft id hmem hid
  induction k generalizing g id n above with
  | zero => exact (not_walking hnodup hlive hn hnew hk).elim
  | succ k ih =>
    rw [detachWithin]
    refine .bind (hleave g id .refl hid) fun left hout => ?_
    have hfirst : Exits s g left := .single (.of_leave hn hs hout)
    obtain ⟨n₁, hn₁, -⟩ := (SameLinkage.exits hfirst).node hn
    refine .bind (hcompanions left id n₁ hfirst hn₁) fun cs hcs => .foldlM (P := Exits s left) .refl ?_
    intro g₁ c hc hrest
    have hexits : Exits s g g₁ := hfirst.trans hrest
    have hsameLinkage : SameLinkage g g₁ := .exits hexits
    have hwalking : ∀ x ∈ id :: above, g₁.homeAt? x ≠ some s := by
      refine List.forall_mem_cons.2 ⟨hrest.kept ?_, fun x hx => hexits.kept (hleft x hx)⟩
      rw [(leave_views hout).2, if_pos rfl]
      rintro ⟨⟩
    constructor
    · refine .bind (terminates_node fun hw => hsameLinkage.linked hlinked id c hw ?_) fun m hm => ?_
      · exact (SameLinkage.exits hrest).companion_iff.2 ((mem_companions_iff hcs).1 hc)
      split
      next hthere =>
        rw [node_eq_ok_iff] at hm
        have hhome : g₁.homeAt? c = some s := homeAt?_eq_some_iff.2 ⟨m, hm, hthere⟩
        have hle := hsameLinkage.depthBound_le
        refine ih (id :: above) (fun g₂ x h₂ => hleave g₂ x (hexits.trans h₂))
          (fun g₂ x m h₂ => hcompanions g₂ x m (hexits.trans h₂)) (hsameLinkage.linked hlinked) hhome ?_
          (List.nodup_cons.2 ⟨hnew, hnodup⟩)
            (hsameLinkage.allLive (List.forall_mem_cons.2 ⟨⟨n, hn⟩, hlive⟩)) hwalking m hm hthere
          fun hmem => hwalking c hmem hhome
        rw [List.length_cons]
        omega
      next => exact .pure _
    · intro g₂ hg₂
      obtain ⟨m, hm, hg₂⟩ := bind_eq_ok.1 hg₂
      split at hg₂
      next hthere => exact hrest.trans (detachWithin_exits hg₂ (node_eq_ok_iff.1 hm) hthere).1
      next =>
        obtain rfl := pure_eq_ok.1 hg₂
        exact hrest

/-- A walk into a scope is busy with nodes that are in a scope. -/
theorem insertWithin_terminates {may : Graph → NodeId → ScopeId → Prop} (above : List NodeId) (guards : GuardsAt may t)
    (henter : ∀ g₁ x m, Entries may t g g₁ → g₁.nodeAt? x = some m → m.scope = none → may g₁ x t →
      Terminates well (g₁.enter x t))
    (hcheck : ∀ g₁ x, Entries may t g g₁ → Terminates well (g₁.targetError? x t))
    (hcompanions : ∀ g₁ x m, Entries may t g g₁ → g₁.nodeAt? x = some m → Terminates well (g₁.companions x))
    (hlinked : ∀ x y, well → Companion g x y → ∃ m, g.nodeAt? y = some m)
    (hn : g.nodeAt? id = some n) (hnone : n.scope = none) (hmay : may g id t) (hk : g.depthBound ≤ above.length + k)
    (hnodup : above.Nodup) (hlive : AllLive g above) (hcome : ∀ x ∈ above, g.homeAt? x ≠ none) :
    Terminates well (insertWithin k g id t) := by
  have hhome : g.homeAt? id = none := by rw [homeAt?, hn, Option.bind_some, hnone]
  have hnew : id ∉ above := fun hmem => hcome id hmem hhome
  induction k generalizing g id n above with
  | zero => exact (not_walking hnodup hlive hn hnew hk).elim
  | succ k ih =>
    rw [insertWithin]
    refine .bind (henter g id n .refl hn hnone hmay) fun entered hin => ?_
    have hfirst : Entries may t g entered := .single (.of_enter hn hnone hmay hin)
    obtain ⟨n₁, hn₁, -⟩ := (SameLinkage.entries hfirst).node hn
    refine .bind (hcompanions entered id n₁ hfirst hn₁) fun cs hcs => .foldlM (P := Entries may t entered) .refl ?_
    intro g₁ c hc hrest
    have hentries : Entries may t g g₁ := hfirst.trans hrest
    have hsameLinkage : SameLinkage g g₁ := .entries hentries
    have hwalking : ∀ x ∈ id :: above, g₁.homeAt? x ≠ none := by
      refine List.forall_mem_cons.2 ⟨hrest.kept ?_, fun x hx => hentries.kept (hcome x hx)⟩
      rw [(enter_views hin hn).2, if_pos rfl]
      rintro ⟨⟩
    constructor
    · refine .bind (terminates_node fun hw => hsameLinkage.linked hlinked id c hw ?_) fun m hm => ?_
      · exact (SameLinkage.entries hrest).companion_iff.2 ((mem_companions_iff hcs).1 hc)
      split
      next => exact .pure _
      next hfree =>
        rw [node_eq_ok_iff] at hm
        refine .bind (hcheck g₁ c hentries) fun refused hrefused => ?_
        cases refused with
        | some e => exact .pure _
        | none =>
          have hfree : m.scope = none := by simpa using hfree
          have hhome : g₁.homeAt? c = none := by rw [homeAt?, hm, Option.bind_some, hfree]
          have hle := hsameLinkage.depthBound_le
          refine ih (id :: above) (fun g₂ x m h₂ => henter g₂ x m (hentries.trans h₂))
            (fun g₂ x h₂ => hcheck g₂ x (hentries.trans h₂)) (fun g₂ x m h₂ => hcompanions g₂ x m (hentries.trans h₂))
            (hsameLinkage.linked hlinked) hm hfree (guards.of_check hrefused) ?_ (List.nodup_cons.2 ⟨hnew, hnodup⟩)
            (hsameLinkage.allLive (List.forall_mem_cons.2 ⟨⟨n, hn⟩, hlive⟩)) hwalking hhome
              fun hmem => hwalking c hmem hhome
          rw [List.length_cons]
          omega
    · intro g₂ hg₂
      obtain ⟨m, hm, hg₂⟩ := bind_eq_ok.1 hg₂
      split at hg₂
      next =>
        obtain rfl := pure_eq_ok.1 hg₂
        exact hrest
      next hfree =>
        obtain ⟨refused, hrefused, hg₂⟩ := bind_eq_ok.1 hg₂
        cases refused with
        | some e =>
          obtain rfl := pure_eq_ok.1 hg₂
          exact hrest
        | none =>
          exact hrest.trans
            (insertWithin_entries guards hg₂ (node_eq_ok_iff.1 hm) (by simpa using hfree) (guards.of_check hrefused))

namespace EditInvariant

theorem detach (h : EditInvariant well g) (hid : g.homeAt? id = some s) : Terminates well (g.detach id s) := by
  have hexits {g₁ : Graph} (h₁ : Exits s g g₁) : EditInvariant well g₁ := h.moves h₁.moves.of_never
  refine detachWithin_terminates [] (fun g₁ x h₁ hx => ?_) (fun g₁ x m h₁ hm => (hexits h₁).companions hm)
    (fun x y _ hxy => node_of_companion h.wellFormed.linksMatch hxy) hid (Nat.le_add_left _ _) List.nodup_nil
    (fun _ hx => (List.not_mem_nil hx).elim) fun _ hx => (List.not_mem_nil hx).elim
  obtain ⟨m, hm, hs⟩ := homeAt?_eq_some_iff.1 hx
  exact (hexits h₁).leave hm hs

theorem insertIntoScope (h : EditInvariant well g) (hn : g.nodeAt? id = some n) (hnone : n.scope = none)
    (hclear : clear g id t) : Terminates well (g.insertIntoScope id t) := by
  have hentries {g₁ : Graph} (h₁ : Entries clear t g g₁) : EditInvariant well g₁ := h.moves h₁.editMoves.moves
  refine insertWithin_terminates [] (guards_clear t) (fun g₁ x m h₁ => (hentries h₁).enter) (fun g₁ x h₁ => ?_)
    (fun g₁ x m h₁ hm => (hentries h₁).companions hm) (fun x y _ hxy => node_of_companion h.wellFormed.linksMatch hxy)
      hn hnone hclear
    (Nat.le_add_left _ _) List.nodup_nil (fun _ hx => (List.not_mem_nil hx).elim) fun _ hx => (List.not_mem_nil hx).elim
  obtain ⟨sc, hsc⟩ := hclear.live
  obtain ⟨sc₁, hsc₁, -⟩ := h₁.editMoves.moves.changes.allKept.scope_of hsc
  exact (hentries h₁).targetError? (fun _ => ⟨some sc₁, scope?_eq_some_iff.2 hsc₁⟩) x

theorem appendToScope (h : EditInvariant well g) (hn : g.nodeAt? id = some n)
    (ht : well → ∃ found, g.scope? t = .ok found) :
    Terminates well (g.appendToScope id t) := by
  rw [Graph.appendToScope, node_eq_ok_iff.2 hn, ok_bind]
  cases hs : n.scope with
  | some s => exact .pure _
  | none =>
    refine .bind (h.targetError? ht id) fun refused hrefused => ?_
    cases refused with
    | some e => exact .pure _
    | none => exact .bind (h.insertIntoScope hn hs (clear_of_check hrefused)) fun _ _ => .pure _

theorem changeScope (h : EditInvariant well g) (hn : g.nodeAt? id = some n)
    (ht : well → ∃ found, g.scope? t = .ok found) :
    Terminates well (g.changeScope id t) := by
  simp only [Graph.changeScope, node_eq_ok_iff.2 hn, ok_bind]
  split
  next => exact .pure _
  refine .bind (h.targetError? ht id) fun refused hrefused => ?_
  cases refused with
  | some e => exact .pure _
  | none =>
    have hclear := clear_of_check hrefused
    cases hs : n.scope with
    | none =>
      refine .bind (.pure g) fun g₁ hg₁ => ?_
      obtain rfl := pure_eq_ok.1 hg₁
      exact .bind (h.insertIntoScope hn hs hclear) fun _ _ => .pure _
    | some s =>
      refine .bind (h.detach (homeAt?_eq_some_iff.2 ⟨n, hn, hs⟩)) fun left hleft => ?_
      obtain ⟨hmoves, hn₁⟩ := detach_moves hleft hn hs
      have hleft₁ : EditInvariant well left := h.moves hmoves.of_never
      exact .bind (hleft₁.insertIntoScope hn₁ rfl ((guards_clear t).kept_moves hmoves hclear)) fun _ _ => .pure _

theorem transfer (h : EditInvariant well g) {cs : List NodeId} (hcs : AllLive g cs)
    (ht : ∃ sc, g.scopeAt? t = some sc) :
    Terminates well (transfer s t cs g) := by
  induction cs generalizing g with
  | nil => exact .pure _
  | cons c cs ih =>
    obtain ⟨⟨m, hm⟩, hcs⟩ := List.forall_mem_cons.1 hcs
    obtain ⟨st, hst⟩ := ht
    rw [Graph.transfer, node_eq_ok_iff.2 hm, ok_bind]
    split
    next =>
      refine .bind (h.changeScope hm fun _ => ⟨some st, scope?_eq_some_iff.2 hst⟩) fun moved hmoved => ?_
      obtain ⟨g₁, r⟩ := moved
      have hmoves := changeScope_moves (guards_clear t) hmoved
      have hallKept := hmoves.changes.allKept
      cases r with
      | error e => exact .pure _
      | ok _ =>
        refine ih (h.moves hmoves) (fun x hx => ?_) ?_
        · obtain ⟨m, hm⟩ := hcs x hx
          obtain ⟨m₁, hm₁, -⟩ := hallKept.node_of hm
          exact ⟨m₁, hm₁⟩
        · obtain ⟨st₁, hst₁, -⟩ := hallKept.scope_of hst
          exact ⟨st₁, hst₁⟩
    next => exact ih h hcs ⟨st, hst⟩

theorem transferChildren (h : EditInvariant well g) (hs : well → ∃ sc, g.scopeAt? s = some sc)
    (ht : ∃ sc, g.scopeAt? t = some sc) :
    Terminates well (g.transferChildren s t) := by
  refine .bind (terminates_scope hs) fun sc hsc => h.transfer (fun c hc => ?_) ht
  obtain ⟨m, hm, -⟩ := (h.wellFormed.scopesMatchNodes.scopeMatchesNodes (scope_eq_ok_iff.1 hsc)).child c hc
  exact ⟨m, hm⟩

end EditInvariant

open Relation

/-- These nodes come to be in one scope, or in none, and all others stay where they are. -/
def Relocates (g g' : Graph) (goes : NodeId → Prop) (home : Option ScopeId) : Prop :=
  ∀ x, (goes x → g'.homeAt? x = home) ∧ (¬goes x → g'.homeAt? x = g.homeAt? x)

/-- The nodes that come into a scope along with the first one: those in no scope that are not around it, as far as they
are reached through such nodes. -/
def EntersWith (g : Graph) (t : ScopeId) : NodeId → NodeId → Prop :=
  ReflTransGen fun a b => Companion g a b ∧ g.homeAt? b = none ∧ ¬Surrounds g b t

theorem entersWith_iff (ho : ScopesOwned g) (ht : OwnersOnPath g (fun _ => True) t) :
    EntersWith g t id x ↔ AdmittedWith g t id x := by
  have hclear (b : NodeId) : ¬Surrounds g b t ↔ clear g b t := (not_congr (surrounds_iff ho ht)).trans not_not
  simp only [EntersWith, AdmittedWith, hclear]

theorem CompanyLeft.relocates (h : CompanyLeft s id g g') (hid : g.homeAt? id = some s) :
    Relocates g g' (TravelsWith g g s id) none :=
  fun _ => ⟨h.homeAt?_of_travelsWith hid, h.homeAt?_of_not_travelsWith⟩

theorem CompanyEntered.relocates (h : CompanyEntered t id g g') (ho : ScopesOwned g)
    (ht : OwnersOnPath g (fun _ => True) t) (hid : g.homeAt? id = none) :
    Relocates g g' (EntersWith g t id) (some t) := by
  intro x
  rw [entersWith_iff ho ht]
  refine ⟨h.homeAt?_of_admittedWith hid, fun hnot => ?_⟩
  rcases h.homes x with hsame | ⟨-, -, hx⟩
  · exact hsame
  · exact (hnot hx).elim

/-- Nothing is refused without a scope that the node owns around the target. -/
theorem targetError?_eq_none_iff (h : EditInvariant True g) {found : Option Scope} (ht : g.scope? t = .ok found)
    (id : NodeId) : g.targetError? id t = .ok none ↔ found ≠ none ∧ ¬Surrounds g id t := by
  constructor
  · intro hcheck
    have hclear := clear_of_check hcheck
    obtain ⟨sc, hsc⟩ := hclear.live
    obtain rfl := (scopeAt?_of_scope? ht).symm.trans hsc
    refine ⟨by rintro ⟨⟩, fun hsurrounds => ?_⟩
    exact (surrounds_iff h.wellFormed.scopesOwned (hclear.mono fun _ _ => trivial)).1 hsurrounds hclear
  · rintro ⟨hfound, hnot⟩
    obtain ⟨sc, rfl⟩ := Option.ne_none_iff_exists'.1 hfound
    have hownersOnPath :=
      parentsEnd_iff.1 ((h.consistent trivial).parentsEnd (scope_eq_ok_iff.2 (scope?_eq_some_iff.1 ht)))
    have hclear : clear g id t :=
      not_not.1 fun hblocked => hnot ((surrounds_iff h.wellFormed.scopesOwned hownersOnPath).2 hblocked)
    obtain ⟨refused, hrefused⟩ := (h.targetError? (fun _ => ⟨_, ht⟩) id).exists_ok
    obtain rfl := OwnersOnPath.not_refused hclear h.wellFormed.scopesOwned hrefused
    exact hrefused

theorem removeFromScope_relocates (h : EditInvariant True g) (hn : g.nodeAt? id = some n) (hs : n.scope = some s) :
    ∃ left, g.removeFromScope id = .ok (left, .ok s) ∧ Relocates g left (TravelsWith g g s id) none := by
  have hhome : g.homeAt? id = some s := homeAt?_eq_some_iff.2 ⟨n, hn, hs⟩
  obtain ⟨left, hleft⟩ := (h.detach hhome).exists_ok
  refine ⟨left, ?_, (detachWithin_companyLeft hleft hhome).relocates hhome⟩
  simp only [removeFromScope, node_eq_ok_iff.2 hn, ok_bind, hs, hleft]
  rfl

theorem appendToScope_relocates (h : EditInvariant True g) (hn : g.nodeAt? id = some n) {found : Option Scope}
    (ht : g.scope? t = .ok found) : ∃ g' r, g.appendToScope id t = .ok (g', r) ∧
      (r = .ok () ↔ n.scope = none ∧ found ≠ none ∧ ¬Surrounds g id t) ∧ (r ≠ .ok () → g' = g) ∧
      (r = .ok () → Relocates g g' (EntersWith g t id) (some t)) := by
  have hcheck := targetError?_eq_none_iff h ht id
  obtain ⟨⟨g', r⟩, happend⟩ := (h.appendToScope hn fun _ => ⟨found, ht⟩).exists_ok
  refine ⟨g', r, happend, ?_⟩
  simp only [appendToScope, node_eq_ok_iff.2 hn, ok_bind] at happend
  cases hs : n.scope with
  | some s =>
    rw [hs] at happend
    cases happend
    exact ⟨iff_of_false (by rintro ⟨⟩) (by rintro ⟨⟨⟩, -⟩), fun _ => rfl, by rintro ⟨⟩⟩
  | none =>
    simp only [hs] at happend
    obtain ⟨refused, hrefused, happend⟩ := bind_eq_ok.1 happend
    cases refused with
    | some e =>
      cases happend
      refine ⟨iff_of_false (by rintro ⟨⟩) fun hfree => ?_, fun _ => rfl, by rintro ⟨⟩⟩
      cases hrefused.symm.trans (hcheck.2 hfree.2)
    | none =>
      obtain ⟨inserted, hinserted, happend⟩ := bind_eq_ok.1 happend
      cases happend
      have hclear := clear_of_check hrefused
      have hcompanyEntered := insertWithin_companyEntered hinserted h.wellFormed.scopesOwned hn hs hclear
      refine ⟨iff_of_true rfl ⟨rfl, hcheck.1 hrefused⟩, fun hr => (hr rfl).elim, fun _ => ?_⟩
      refine hcompanyEntered.relocates h.wellFormed.scopesOwned (hclear.mono fun _ _ => trivial) ?_
      rw [homeAt?, hn, Option.bind_some, hs]

/-- A change of scope is a removal, refused where there is nothing to leave, and an append. -/
theorem changeScope_removes_appends (h : EditInvariant True g) (hn : g.nodeAt? id = some n) (hother : n.scope ≠ some t)
    {found : Option Scope} (ht : g.scope? t = .ok found) : ∃ g' r, g.changeScope id t = .ok (g', r) ∧
      (r = .ok () ↔ found ≠ none ∧ ¬Surrounds g id t) ∧ (r ≠ .ok () → g' = g) ∧
      (r = .ok () → ∃ left out, g.removeFromScope id = .ok (left, out) ∧
      left.appendToScope id t = .ok (g', .ok ())) := by
  have hcheck := targetError?_eq_none_iff h ht id
  obtain ⟨⟨g', r⟩, hchange⟩ := (h.changeScope hn fun _ => ⟨found, ht⟩).exists_ok
  refine ⟨g', r, hchange, ?_⟩
  simp only [changeScope, node_eq_ok_iff.2 hn, ok_bind, if_neg hother] at hchange
  obtain ⟨refused, hrefused, hchange⟩ := bind_eq_ok.1 hchange
  cases refused with
  | some e =>
    cases hchange
    refine ⟨iff_of_false (by rintro ⟨⟩) fun hfree => ?_, fun _ => rfl, by rintro ⟨⟩⟩
    cases hrefused.symm.trans (hcheck.2 hfree)
  | none =>
    cases hs : n.scope with
    | none =>
      simp only [hs, pure_bind] at hchange
      obtain ⟨inserted, hinserted, hchange⟩ := bind_eq_ok.1 hchange
      cases hchange
      refine ⟨iff_of_true rfl (hcheck.1 hrefused), fun hr => (hr rfl).elim,
        fun _ => ⟨g, .error (.notScoped id), ?_, ?_⟩⟩
      · simp only [removeFromScope, node_eq_ok_iff.2 hn, ok_bind, hs]
        rfl
      · simp only [appendToScope, node_eq_ok_iff.2 hn, ok_bind, hs, hrefused, hinserted]
        rfl
    | some s =>
      simp only [hs] at hchange
      obtain ⟨left, hleft, hchange⟩ := bind_eq_ok.1 hchange
      obtain ⟨inserted, hinserted, hchange⟩ := bind_eq_ok.1 hchange
      cases hchange
      obtain ⟨hmoves, hn₁⟩ := detach_moves hleft hn hs
      have heditInvariant : EditInvariant True left := h.moves hmoves.of_never
      have hclear : clear left id t := (guards_clear t).kept_moves hmoves (clear_of_check hrefused)
      obtain ⟨sc, hsc⟩ := hclear.live
      obtain ⟨again, hagain⟩ := (heditInvariant.targetError? (fun _ => ⟨_, scope?_eq_some_iff.2 hsc⟩) id).exists_ok
      obtain rfl := OwnersOnPath.not_refused hclear heditInvariant.wellFormed.scopesOwned hagain
      refine ⟨iff_of_true rfl (hcheck.1 hrefused), fun hr => (hr rfl).elim, fun _ => ⟨left, .ok s, ?_, ?_⟩⟩
      · simp only [removeFromScope, node_eq_ok_iff.2 hn, ok_bind, hs, hleft]
        rfl
      · simp only [appendToScope, node_eq_ok_iff.2 hn₁, ok_bind, hagain, hinserted]
        rfl

theorem companions_ne_endless (g : Graph) (id : NodeId) : g.companions id ≠ .error .endless := by
  have hterminates : Terminates False (g.companions id) := by
    refine .bind (terminates_node False.elim) fun n _ => ?_
    exact .bind (.filterM fun i _ => .bind (terminates_node False.elim) fun _ _ => .pure _) fun _ _ => .pure _
  exact hterminates.ne_endless

/-- Whatever the graph, it is never for the links that a walk out of a scope does not end. -/
theorem detach_endless (hid : g.homeAt? id = some s) (h : g.detach id s = .error .endless) :
    ∃ g₁ x, Exits s g g₁ ∧ g₁.leave x s = .error .endless := by
  by_contra hnone
  have hterminates : Terminates False (g.detach id s) := by
    refine detachWithin_terminates [] (fun g₁ x h₁ _ e he => ?_) (fun g₁ x m _ _ e he => ?_)
      (fun _ _ hfalse => hfalse.elim) hid (Nat.le_add_left _ _) List.nodup_nil (fun _ hx => (List.not_mem_nil hx).elim)
      fun _ hx => (List.not_mem_nil hx).elim
    · exact ⟨not_false, fun hendless => hnone ⟨g₁, x, h₁, hendless ▸ he⟩⟩
    · exact ⟨not_false, fun hendless => companions_ne_endless g₁ x (hendless ▸ he)⟩
  exact hterminates.ne_endless h

theorem insertIntoScope_endless (hn : g.nodeAt? id = some n) (hnone : n.scope = none)
    (h : g.insertIntoScope id t = .error .endless) : ∃ g₁ x, Entries always t g g₁ ∧
      (g₁.targetError? x t = .error .endless ∨ g₁.enter x t = .error .endless) := by
  by_contra hnot
  have hterminates : Terminates False (g.insertIntoScope id t) := by
    refine insertWithin_terminates [] (guards_always t) (fun g₁ x m h₁ _ _ _ e he => ?_) (fun g₁ x h₁ e he => ?_)
      (fun g₁ x m _ _ e he => ?_) (fun _ _ hfalse => hfalse.elim) hn hnone trivial (Nat.le_add_left _ _) List.nodup_nil
      (fun _ hx => (List.not_mem_nil hx).elim) fun _ hx => (List.not_mem_nil hx).elim
    · exact ⟨not_false, fun hendless => hnot ⟨g₁, x, h₁, .inr (hendless ▸ he)⟩⟩
    · exact ⟨not_false, fun hendless => hnot ⟨g₁, x, h₁, .inl (hendless ▸ he)⟩⟩
    · exact ⟨not_false, fun hendless => companions_ne_endless g₁ x (hendless ▸ he)⟩
  exact hterminates.ne_endless h

/-- Removing a node takes it out of its scope with the companions there, appending it takes along the companions in no
scope that can enter, and a change of scope is the one and then the other. Each of them gives a result, and on no graph
is it the links that keep a walk from ending. -/
theorem company_relocates (hr : Reachable g) (hg : Consistent g) (hn : g.node id = .ok n) :
    (n.scope = none → g.removeFromScope id = .ok (g, .error (.notScoped id))) ∧
    (∀ s, n.scope = some s → ∃ left, g.removeFromScope id = .ok (left, .ok s) ∧
      Relocates g left (TravelsWith g g s id) none) ∧
    (∀ t found, g.scope? t = .ok found → ∃ g' r, g.appendToScope id t = .ok (g', r) ∧
      (r = .ok () ↔ n.scope = none ∧ found ≠ none ∧ ¬Surrounds g id t) ∧ (r ≠ .ok () → g' = g) ∧
      (r = .ok () → Relocates g g' (EntersWith g t id) (some t))) ∧
    (∀ t found, g.scope? t = .ok found → n.scope ≠ some t → ∃ g' r, g.changeScope id t = .ok (g', r) ∧
      (r = .ok () ↔ found ≠ none ∧ ¬Surrounds g id t) ∧ (r ≠ .ok () → g' = g) ∧
      (r = .ok () → ∃ left out, g.removeFromScope id = .ok (left, out) ∧ left.appendToScope id t = .ok (g', .ok ()))) ∧
    (∀ (h : Graph) x s, h.homeAt? x = some s → h.detach x s = .error .endless →
      ∃ h₁ y, Exits s h h₁ ∧ h₁.leave y s = .error .endless) ∧
    ∀ (h : Graph) x m t, h.node x = .ok m → m.scope = none → h.insertIntoScope x t = .error .endless →
      ∃ h₁ y, Entries always t h h₁ ∧ (h₁.targetError? y t = .error .endless ∨ h₁.enter y t = .error .endless) := by
  have heditInvariant := hr.editInvariant hg
  rw [node_eq_ok_iff] at hn
  refine ⟨fun hnone => ?_, fun s hs => removeFromScope_relocates heditInvariant hn hs,
    fun t found ht => appendToScope_relocates heditInvariant hn ht,
    fun t found ht hother => changeScope_removes_appends heditInvariant hn hother ht, fun h x s hx => detach_endless hx,
    fun h x m t hm hnone => insertIntoScope_endless (node_eq_ok_iff.1 hm) hnone⟩
  simp only [removeFromScope, node_eq_ok_iff.2 hn, ok_bind, hnone]
  rfl

def circuit : Except Fault Graph := do
  let g ← create {} {} default {}
  [.emptyInstruction ⟨2⟩, .emptyInstruction ⟨2⟩, .connect ⟨⟨3⟩, ⟨1⟩⟩ ⟨⟨4⟩, ⟨0⟩⟩ false,
    .connect ⟨⟨4⟩, ⟨1⟩⟩ ⟨⟨3⟩, ⟨0⟩⟩ false].foldlM perform g

theorem consistent_circuit (h : circuit = .ok g) : Reachable g ∧ Consistent g := by
  obtain ⟨g₀, hcreate, h⟩ := bind_eq_ok.1 h
  exact consistent_foldlM h (.create hcreate) (consistent_create hcreate) (by simp [Edit.destroys, Edit.block?])

/-- Either of them takes the other one along. -/
theorem travelsWith_circuit : ∃ g left n, Reachable g ∧ Consistent g ∧ g.node ⟨3⟩ = .ok n ∧ n.scope = some ⟨2⟩ ∧
    g.removeFromScope ⟨3⟩ = .ok (left, .ok ⟨2⟩) ∧ left.homeAt? ⟨4⟩ = none ∧ TravelsWith g g ⟨2⟩ ⟨3⟩ ⟨4⟩ := by
  obtain ⟨u, h⟩ := exists_of_isOk (x := do
    let g ← circuit
    let n ← g.node ⟨3⟩
    let left ← g.removeFromScope ⟨3⟩
    if ¬(n.scope = some ⟨2⟩ ∧ g.homeAt? ⟨4⟩ = some ⟨2⟩ ∧ left.1.homeAt? ⟨4⟩ = none) then throw .endless)
      (by decide +kernel)
  simp only [bind_eq_ok] at h
  obtain ⟨g, hcircuit, n, hn, left, hleft, h⟩ := h
  split at h
  next => cases h
  next hfacts =>
    obtain ⟨hs, hbefore, hafter⟩ := not_not.1 hfacts
    obtain ⟨hr, hg⟩ := consistent_circuit hcircuit
    obtain ⟨left', hleft', hrelocates⟩ := (company_relocates hr hg hn).2.1 ⟨2⟩ hs
    cases hleft.symm.trans hleft'
    refine ⟨g, left', n, hr, hg, hn, hs, hleft', hafter, ?_⟩
    by_contra hnot
    rw [(hrelocates ⟨4⟩).2 hnot, hbefore] at hafter
    cases hafter

end FlowGraph.Graph
