import FlowGraph.Proofs.Cached.Agreement
import FlowGraph.Proofs.Paths

/-!
# Edits that keep tables coherent

An edit of a program with memo tables does to the program what it does without them. Where it writes something that
a table depends on it clears that table, if not at once then before the table is read again: the tables it leaves are
coherent if those it found are.
-/

namespace FlowGraph.Cached

open Memo (TablesFit NoBackbones AnyBackbones Coherent)

variable {α β : Type} {g g' : Graph} {id : NodeId} {s t : ScopeId} {n : Node} {link : Link} {m : Memo}
variable {kept : Graph → ScopeId → List NodeId → Prop}

namespace AgreesUpTo

variable {late early : Prop} {Q : α → Memo → Prop} {x : Except Fault α} {w : Memo → Memo}

theorem lift_modify (h : ∀ a, x = .ok a → Q a (w m)) :
    AgreesUpTo late early Q ((do let a ← liftM x; modify w; return a : Cached α).run m) x := by
  cases x with
  | error e => exact .fault e
  | ok a => exact .ok (h a rfl)

end AgreesUpTo

theorem enter_agrees (h : AnyBackbones g m) (id : NodeId) (s : ScopeId) :
    Agrees NoBackbones ((enter g id s).run m) (g.enter id s) :=
  .lift_modify fun _ henter => (h.sameLinkage (.enter henter)).dropBackbones

theorem leave_agrees (h : AnyBackbones g m) (id : NodeId) (s : ScopeId) :
    Agrees NoBackbones ((leave g id s).run m) (g.leave id s) :=
  .lift_modify fun _ hleave => (h.sameLinkage (.leave hleave)).dropBackbones

theorem insertWithin_agrees {k : Nat} (h : AnyBackbones g m) (id : NodeId) (s : ScopeId) :
    Agrees NoBackbones ((insertWithin k g id s).run m) (Graph.insertWithin k g id s) := by
  induction k generalizing g m id with
  | zero => exact .fault .endless
  | succ k ih =>
    refine (enter_agrees h id s).bind fun g₁ m₁ _ h₁ => ?_
    refine (companions_agreesUpTo h₁ id).bind fun ids m₂ _ h₂ => .foldlM (fun g₂ next m₃ h₃ => ?_) ids h₂
    refine .lift_bind fun n _ => ?_
    split
    · exact .ok h₃
    · refine .lift_bind fun error _ => ?_
      split
      · exact .ok h₃
      · exact ih h₃.anyBackbones next

theorem insertIntoScope_agrees (h : AnyBackbones g m) (id : NodeId) (s : ScopeId) :
    Agrees NoBackbones ((insertIntoScope g id s).run m) (g.insertIntoScope id s) := insertWithin_agrees h id s

theorem detachWithin_agrees {k : Nat} (h : AnyBackbones g m) (id : NodeId) (s : ScopeId) :
    Agrees NoBackbones ((detachWithin k g id s).run m) (Graph.detachWithin k g id s) := by
  induction k generalizing g m id with
  | zero => exact .fault .endless
  | succ k ih =>
    refine (leave_agrees h id s).bind fun g₁ m₁ _ h₁ => ?_
    refine (companions_agreesUpTo h₁ id).bind fun ids m₂ _ h₂ => .foldlM (fun g₂ next m₃ h₃ => ?_) ids h₂
    refine .lift_bind fun n _ => ?_
    split
    · exact ih h₃.anyBackbones next
    · exact .ok h₃

theorem detach_agrees (h : AnyBackbones g m) (id : NodeId) (s : ScopeId) :
    Agrees NoBackbones ((detach g id s).run m) (g.detach id s) := detachWithin_agrees h id s

theorem appendToScope_agrees (h : TablesFit kept g m) (id : NodeId) (s : ScopeId) :
    Agrees (fun r m' => TablesFit kept r.1 m') ((appendToScope g id s).run m) (g.appendToScope id s) := by
  refine .lift_bind fun n _ => ?_
  cases n.scope with
  | some current => exact .ok h
  | none =>
    refine .lift_bind fun error _ => ?_
    cases error with
    | some e => exact .ok h
    | none => exact (insertIntoScope_agrees h.anyBackbones id s).bind fun g₁ m₁ _ h₁ => .ok h₁.tablesFit

theorem removeFromScope_agrees (h : TablesFit kept g m) (id : NodeId) :
    Agrees (fun r m' => TablesFit kept r.1 m') ((removeFromScope g id).run m) (g.removeFromScope id) := by
  refine .lift_bind fun n _ => ?_
  cases n.scope with
  | none => exact .ok h
  | some s => exact (detach_agrees h.anyBackbones id s).bind fun g₁ m₁ _ h₁ => .ok h₁.tablesFit

theorem changeScope_agrees (h : TablesFit kept g m) (id : NodeId) (s : ScopeId) :
    Agrees (fun r m' => TablesFit kept r.1 m') ((changeScope g id s).run m) (g.changeScope id s) := by
  refine .lift_bind fun n _ => ?_
  dsimp only
  split
  · exact .ok h
  · refine .lift_bind fun error _ => ?_
    cases error with
    | some e => exact .ok h
    | none =>
      have hplace (g₁ : Graph) (m₁ : Memo) (h₁ : AnyBackbones g₁ m₁) : Agrees (fun r m' => TablesFit kept r.1 m')
          ((do return (← insertIntoScope g₁ id s, .ok ()) : Cached (Graph × Except ScopeError Unit)).run m₁)
          (do return (← g₁.insertIntoScope id s, .ok ())) :=
        (insertIntoScope_agrees h₁ id s).bind fun g₂ m₂ _ h₂ => .ok h₂.tablesFit
      cases n.scope with
      | none => exact hplace g m h.anyBackbones
      | some current =>
        exact (detach_agrees h.anyBackbones id current).bind fun g₁ m₁ _ h₁ => hplace g₁ m₁ h₁.anyBackbones

theorem transfer_agrees (h : TablesFit kept g m) (source target : ScopeId) (ids : List NodeId) :
    Agrees (fun r m' => TablesFit kept r.1 m') ((transfer source target ids g).run m)
      (Graph.transfer source target ids g) := by
  induction ids generalizing g m with
  | nil => exact .ok h
  | cons c rest ih =>
    refine .lift_bind fun n _ => ?_
    split
    · refine (changeScope_agrees h c target).bind fun r m₁ _ h₁ => ?_
      obtain ⟨g₁, result⟩ := r
      cases result with
      | ok _ => exact ih h₁
      | error e => exact .ok h₁
    · exact ih h

theorem transferChildren_agrees (h : TablesFit kept g m) (source target : ScopeId) :
    Agrees (fun r m' => TablesFit kept r.1 m') ((transferChildren g source target).run m)
      (g.transferChildren source target) :=
  .lift_bind fun sc _ => transfer_agrees h source target sc.children

theorem resetHead_agrees (h : AnyBackbones g m) (s : ScopeId) :
    Agrees NoBackbones ((resetHead g s).run m) (g.resetHead s) := by
  refine .lift_modify fun g₁ hreset => ?_
  obtain ⟨head, -, hreset⟩ := bind_eq_ok.1 hreset
  cases pure_eq_ok.1 hreset
  exact (h.sameLinkage (.modifyScope _)).dropBackbones

theorem nodeAt?_of_modifySlot {r : SlotRef} {f : Slot → Slot} {x : NodeId} (hx : x ≠ r.node) :
    (g.modifySlot r f).nodeAt? x = g.nodeAt? x := by
  rw [Graph.modifySlot, Graph.nodeAt?_modifyNode, if_neg hx]

/-- Only two nodes are linked otherwise than before, and their tables are cleared. -/
theorem noBackbones_of_relinked (h : AnyBackbones g m)
    (hothers : ∀ x, x ≠ link.tail.node → x ≠ link.head.node → g'.nodeAt? x = g.nodeAt? x) :
    NoBackbones g' ((m.dropNeighbours link.tail.node).dropNeighbours link.head.node).dropBackbones := by
  refine h.linked (fun x f ids n' hx hn' => ?_) fun s path hs => nomatch (Memo.backbone?_dropBackbones s).symm.trans hs
  change ((m.dropNeighbours link.tail.node).dropNeighbours link.head.node).neighbours? x f = some ids at hx
  rw [Memo.neighbours?_dropNeighbours, Memo.neighbours?_dropNeighbours] at hx
  split at hx
  next => cases hx
  next hhead =>
    split at hx
    next => cases hx
    next htail => exact ⟨hx, n', (hothers x htail hhead).symm.trans hn', rfl⟩

theorem addLink_agrees (h : AnyBackbones g m) (link : Link) :
    Agrees NoBackbones ((addLink g link).run m) (.ok (g.addLink link)) := by
  refine .ok (noBackbones_of_relinked h fun x htail hhead => ?_)
  rw [Graph.addLink, Graph.nodeAt?_emit, Graph.nodeAt?_modifyLinks, nodeAt?_of_modifySlot hhead,
    nodeAt?_of_modifySlot htail]

theorem removeLink_agrees (h : AnyBackbones g m) (link : Link) :
    Agrees NoBackbones ((removeLink g link).run m) (.ok (g.removeLink link)) := by
  refine .ok (noBackbones_of_relinked h fun x htail hhead => ?_)
  rw [Graph.removeLink, Graph.nodeAt?_emit, nodeAt?_of_modifySlot hhead, nodeAt?_of_modifySlot htail,
    Graph.nodeAt?_modifyLinks]

theorem onFlowConnected_agrees (h : NoBackbones g m) (link : Link) :
    Agrees NoBackbones ((onFlowConnected g link).run m) (g.onFlowConnected link) := by
  refine .lift_bind fun tails _ => .lift_bind fun target _ => ?_
  cases target with
  | none => exact .ok h
  | some target =>
    refine (changeScope_agrees h link.head.node target).bind fun r m₁ _ h₁ => ?_
    obtain ⟨g₁, result⟩ := r
    cases result with
    | error e => exact .ok h₁
    | ok _ =>
      dsimp only
      split
      · refine .lift_bind fun isBranch _ => ?_
        split
        · exact resetHead_agrees h₁.anyBackbones target
        · exact .ok h₁
      · exact .ok h₁

theorem resettle_agrees (h : NoBackbones g m) (head : SlotRef) : Agrees NoBackbones
    ((do
      match ← g.scopeAfter (← g.predecessors head) with
      | none => return g
      | some target => return (← changeScope g head.node target).1 : Cached Graph).run m) (g.resettle head) := by
  refine .lift_bind fun tails _ => .lift_bind fun target _ => ?_
  cases target with
  | none => exact .ok h
  | some target => exact (changeScope_agrees h head.node target).bind fun r m₁ _ h₁ => .ok h₁

theorem onFlowDisconnected_agrees (h : NoBackbones g m) (link : Link) :
    Agrees NoBackbones ((onFlowDisconnected g link).run m) (g.onFlowDisconnected link) := by
  refine .lift_bind fun isBranch _ => ?_
  split
  · refine .lift_bind fun branch _ => ?_
    cases branch with
    | none => exact resettle_agrees h link.head
    | some branch =>
      refine .lift_bind fun sc _ => ?_
      split
      · exact resettle_agrees (h.sameLinkage (.modifyScope _)) link.head
      · exact resettle_agrees h link.head
  · exact resettle_agrees h link.head

theorem sameLinkage_settleType (h : settleType g link = .ok g') : Graph.SameLinkage g g' :=
  .propertyWritten (Graph.retype_eq h)

theorem onValueConnected_agrees (h : NoBackbones g m) (link : Link) :
    Agrees NoBackbones ((onValueConnected g link).run m) (g.onValueConnected link) := by
  have hsettle (g₁ : Graph) (m₁ : Memo) (h₁ : NoBackbones g₁ m₁) :
      Agrees NoBackbones ((liftM (settleType g₁ link) : Cached Graph).run m₁) (settleType g₁ link) :=
    .lift fun _ hsettle => h₁.sameLinkage (sameLinkage_settleType hsettle)
  refine .lift_bind fun tail _ => .lift_bind fun head _ => ?_
  split
  · cases head.internalScope <|> head.scope with
    | none => exact hsettle g m h
    | some target =>
      refine (changeScope_agrees h tail.id target).bind fun r m₁ _ h₁ => ?_
      exact hsettle r.1 m₁ h₁
  · exact hsettle g m h

theorem connect_agrees (h : TablesFit kept g m) (a b : SlotRef) (sideEffects : Bool) :
    Agrees (fun r m' => TablesFit kept r.1 m') ((connect g a b sideEffects).run m) (g.connect a b sideEffects) := by
  refine .lift_bind fun valid _ => ?_
  cases valid with
  | error e => exact .ok h
  | ok link =>
    dsimp only
    refine .bind_left (addLink_agrees h.anyBackbones link) fun m₁ h₁ => ?_
    cases sideEffects with
    | false => exact .ok h₁.tablesFit
    | true =>
      cases link.kind with
      | flow =>
        refine (onFlowConnected_agrees h₁ link).bind fun g₂ m₂ _ h₂ => ?_
        exact .ok h₂.tablesFit
      | value =>
        refine (onValueConnected_agrees h₁ link).bind fun g₂ m₂ _ h₂ => ?_
        exact .ok h₂.tablesFit

theorem disconnect_agrees (h : TablesFit kept g m) (link : Link) (sideEffects : Bool) :
    Agrees (fun r m' => TablesFit kept r.1 m') ((disconnect g link sideEffects).run m)
      (g.disconnect link sideEffects) := by
  rw [disconnect, Graph.disconnect]
  split
  · exact .ok h
  · refine .bind_left (removeLink_agrees h.anyBackbones link) fun m₁ h₁ => ?_
    cases sideEffects with
    | false => exact .ok h₁.tablesFit
    | true =>
      cases link.kind with
      | flow =>
        refine (onFlowDisconnected_agrees h₁ link).bind fun g₂ m₂ _ h₂ => ?_
        exact .ok h₂.tablesFit
      | value =>
        refine .lift_bind fun g₂ hsettle => ?_
        exact .ok (h₁.sameLinkage (.propertyWritten (Graph.onValueDisconnected_eq hsettle))).tablesFit

section

variable {p : ScopeId → List NodeId → Prop}

theorem allocate_agrees {k : Element} (h : TablesFit (fun _ => p) g m) (build : Handle k → k.Item) :
    Agrees (fun r m' => TablesFit (fun _ => p) r.2 m') ((allocate g k build).run m) (g.allocate k build) := by
  rw [← bind_pure (g.allocate k build)]
  refine .lift_bind fun r hr => ?_
  obtain ⟨x, g₁⟩ := r
  obtain ⟨-, hsame, hother, -⟩ := Graph.allocate_eq hr
  refine .ok (h.linked (fun y f ids n' hy hn' => ?_) fun t path ht => ?_)
  · rw [Memo.neighbours?_forget] at hy
    split at hy
    next => cases hy
    next hne =>
      refine ⟨hy, n', ?_, rfl⟩
      cases k with
      | node => exact ((hsame y).trans (if_neg fun he => hne (congrArg Handle.raw he))).symm.trans hn'
      | scope => exact (hother .node (by decide) y).symm.trans hn'
  · rw [Memo.backbone?_forget] at ht
    split at ht
    next => cases ht
    next => exact h.backbone ht

theorem addPartitions_agrees (h : TablesFit (fun _ => p) g m) (owner : NodeId) (internal : ScopeId) (index k : Nat) :
    Agrees (TablesFit fun _ => p) ((addPartitions owner internal index k g).run m)
      (Graph.addPartitions owner internal index k g) := by
  induction k generalizing g m index with
  | zero => exact .ok h
  | succ k ih =>
    refine (allocate_agrees h _).bind fun r m₁ _ h₁ => ?_
    exact ih (h₁.sameLinkage (.modifyScope _) fun _ _ hs => h₁.backbone hs) (index + 1)

theorem addInternalScope_agrees (h : TablesFit (fun _ => p) g m) (owner : NodeId) (partitions : Nat) :
    Agrees (TablesFit fun _ => p) ((addInternalScope g owner partitions).run m)
      (g.addInternalScope owner partitions) := by
  refine (allocate_agrees h _).bind fun r m₁ _ h₁ => ?_
  refine (addPartitions_agrees h₁ owner r.1 0 partitions).bind fun g₂ m₂ _ h₂ => ?_
  exact .ok (h₂.sameLinkage (.modifyNode fun _ => rfl) fun _ _ hs => h₂.backbone hs)

theorem place_agrees (h : TablesFit (fun _ => p) g m) (id : NodeId) (s : Option ScopeId) :
    Agrees (fun r m' => TablesFit (fun _ t path => p t path ∧ s = none) r.2 m')
      ((do
        let g := { g with nodes := g.nodes ++ [id] }.emit (.nodeAdded id)
        let g ← match s with
          | some s => insertIntoScope g id s
          | none => pure g
        return (id, g) : Cached (NodeId × Graph)).run m)
      (do
        let g := { g with nodes := g.nodes ++ [id] }.emit (.nodeAdded id)
        let g ← match s with
          | some s => g.insertIntoScope id s
          | none => pure g
        return (id, g)) := by
  have hlisted : TablesFit (fun _ => p) ({ g with nodes := g.nodes ++ [id] }.emit (.nodeAdded id)) m :=
    h.sameLinkage .rfl fun _ _ ht => h.backbone ht
  cases s with
  | none => exact .ok ⟨hlisted.neighbours, fun ht => ⟨h.backbone ht, rfl⟩⟩
  | some s => exact (insertIntoScope_agrees hlisted.anyBackbones id s).bind fun g₁ m₁ _ h₁ => .ok h₁.tablesFit

/-- What is kept of backbones is what was, and nothing if the new node enters a scope. -/
theorem spawn_agrees (h : TablesFit (fun _ => p) g m) (build : NodeId → Node) (partitions : Option Nat)
    (s : Option ScopeId) : Agrees (fun r m' => TablesFit (fun _ t path => p t path ∧ s = none) r.2 m')
      ((spawn g build partitions s).run m) (g.spawn build partitions s) := by
  refine (allocate_agrees h build).bind fun r m₁ _ h₁ => ?_
  cases partitions with
  | none => exact place_agrees h₁ r.1 s
  | some k => exact (addInternalScope_agrees h₁ r.1 k).bind fun g₂ m₂ _ h₂ => place_agrees h₂ r.1 s

theorem spawnEntryPoint_agrees (h : TablesFit (fun _ => p) g m) :
    Agrees (TablesFit fun _ => p) ((spawnEntryPoint g).run m) g.spawnEntryPoint := by
  refine (spawn_agrees h Node.entryPoint (some 0) none).bind fun r m₁ _ h₁ => .ok ?_
  exact h₁.sameLinkage .rfl fun _ _ ht => (h₁.backbone ht).1

end

theorem spawn_into_agrees (h : AnyBackbones g m) (build : NodeId → Node) (partitions : Option Nat) (s : ScopeId) :
    Agrees (fun r m' => NoBackbones r.2 m') ((spawn g build partitions (some s)).run m)
      (g.spawn build partitions (some s)) :=
  (spawn_agrees h build partitions (some s)).mono fun _ _ _ h' => ⟨h'.neighbours, fun ht => nomatch (h'.backbone ht).2⟩

theorem createInvokable_agrees (h : AnyBackbones g m) (kind : NodeKind) (signature : Signature) (s : ScopeId) :
    Agrees (fun r m' => NoBackbones r.2 m') ((createInvokable g kind signature s).run m)
      (g.createInvokable kind signature s) :=
  .lift_bind fun _ _ => spawn_into_agrees h _ none s

theorem created_agrees (h : AnyBackbones g m) (build : NodeId → Node) (partitions : Option Nat) (s : ScopeId) :
    Agrees (fun r m' => TablesFit kept r.2 m')
      ((do
        match ← some <$> spawn g build partitions (some s) with
        | some (id, g) => return (some id, g)
        | none => return (none, g) : Cached (Option NodeId × Graph)).run m)
      (do
        match ← some <$> g.spawn build partitions (some s) with
        | some (id, g) => return (some id, g)
        | none => return (none, g)) := by
  simp only [map_eq_pure_bind, bind_assoc, pure_bind]
  exact (spawn_into_agrees h build partitions s).bind fun r m₁ _ h₁ => .ok h₁.tablesFit

theorem createNode_agrees (h : TablesFit kept g m) (kind : NodeKind) (s : ScopeId) :
    Agrees (fun r m' => TablesFit kept r.2 m') ((createNode g kind s).run m) (g.createNode kind s) := by
  cases kind with
  | plain => exact created_agrees h.anyBackbones _ none s
  | emptyInstruction => exact created_agrees h.anyBackbones _ none s
  | ifElse | forLoop | whileLoop => exact created_agrees h.anyBackbones _ (some 2) s
  | entryPoint | literal | function | operator | «variable» | variableRef => exact .ok h

theorem privateInputs_agreesUpTo (h : TablesFit kept g m) (hn : g.nodeAt? id = some n) :
    Agrees (fun _ m' => TablesFit kept g m') ((privateInputs g id n).run m) (g.privateInputs n) := by
  refine .bind_left (neighbours_agreesUpTo h hn .input) fun m₁ h₁ => ?_
  exact .lift fun _ _ => h₁

theorem rescue_agrees (h : TablesFit kept g m) (target s : ScopeId) :
    Agrees (TablesFit kept) ((rescue target g s).run m) (g.rescue target s) :=
  (transferChildren_agrees h s target).bind fun _ _ _ h₁ => .ok h₁

theorem dropLink_agrees (h : TablesFit kept g m) (link : Link) :
    Agrees (TablesFit kept) ((dropLink g link).run m) (g.dropLink link) :=
  (disconnect_agrees h link _).bind fun _ _ _ h₁ => .ok h₁

theorem removeScope_agrees (h : AnyBackbones g m) (s : ScopeId) :
    Agrees AnyBackbones ((removeScope g s).run m) (g.removeScope s) := by
  refine .lift_modify fun g₁ hremove => ?_
  rw [Graph.removeScope] at hremove
  split at hremove
  next hdestroy =>
    cases hremove
    refine h.linked (fun x f ids n' hx hn' => ?_) fun _ _ _ => trivial
    rw [Memo.neighbours?_forget] at hx
    split at hx
    next => cases hx
    next => exact ⟨hx, n', ((Arena.item?_destroy hdestroy).2 .node (by decide) x).symm.trans hn', rfl⟩
  next => cases hremove

theorem remove_agrees (h : AnyBackbones g m) (id : NodeId) (inner : List ScopeId) :
    Agrees NoBackbones ((remove g id inner).run m) (g.remove id inner) := by
  refine .bind (.foldlM (fun g₁ link m₁ h₁ => dropLink_agrees h₁ link) _ h) fun g₁ m₁ _ h₁ => ?_
  refine .lift_bind fun n _ => ?_
  have hgone (g₂ : Graph) (m₂ : Memo) (h₂ : AnyBackbones g₂ m₂) : Agrees NoBackbones
      ((do
        let g ← inner.foldlM removeScope g₂
        modify fun m => (m.forget id.raw).dropBackbones
        return { g with nodes := g.nodes.filter (· != id), arena := g.arena.erase id.raw }.emit
          (.nodeRemoved id) : Cached Graph).run m₂)
      (do
        let g ← inner.foldlM Graph.removeScope g₂
        return { g with nodes := g.nodes.filter (· != id), arena := g.arena.erase id.raw }.emit (.nodeRemoved id)) := by
    refine .bind (.foldlM (fun g₃ s m₃ h₃ => removeScope_agrees h₃ s) inner h₂) fun g₃ m₃ _ h₃ => .ok ?_
    refine h₃.linked (fun x f ids n' hx hn' => ?_) fun t _ ht => nomatch (Memo.backbone?_dropBackbones t).symm.trans ht
    change (m₃.forget id.raw).neighbours? x f = some ids at hx
    rw [Memo.neighbours?_forget] at hx
    split at hx
    next => cases hx
    next hne => exact ⟨hx, n', ((Arena.item?_erase x).trans (if_neg hne)).symm.trans hn', rfl⟩
  cases n.scope with
  | none => exact hgone g₁ m₁ h₁
  | some s => exact (detach_agrees h₁ id s).bind fun g₂ m₂ _ h₂ => hgone g₂ m₂ h₂.anyBackbones

theorem relink_agrees (h : TablesFit kept g m) (ends : Option (SlotRef × SlotRef)) :
    Agrees (TablesFit kept) ((relink g ends).run m) (g.relink ends) := by
  cases ends with
  | none => exact .ok h
  | some ends =>
    rw [relink, Graph.relink]
    split
    · exact (connect_agrees h ends.1 ends.2 true).bind fun _ _ _ h₁ => .ok h₁
    · exact .ok h

theorem destroyWithin_agrees {sideEffects : Bool} {k : Nat} (h : TablesFit kept g m) (id : NodeId) :
    Agrees (TablesFit kept) ((destroyWithin sideEffects k g id).run m) (Graph.destroyWithin sideEffects k g id) := by
  induction k generalizing g m id with
  | zero => exact .fault .endless
  | succ k ih =>
    rw [destroyWithin, Graph.destroyWithin]
    split
    · exact .ok h
    split
    · exact .ok h
    refine .lift_bind fun inner _ => .lift_bind fun this hthis => ?_
    split
    · refine (privateInputs_agreesUpTo h (Graph.node_eq_ok_iff.1 hthis)).bind fun doomed m₁ _ h₁ => ?_
      refine .bind (.foldlM (fun g₂ x m₂ h₂ => ih h₂ x) doomed h₁) fun g₂ m₂ _ h₂ => ?_
      refine .lift_bind fun content _ => ?_
      refine .bind (.foldlM (fun g₃ x m₃ h₃ => ih h₃ x) _ h₂) fun g₃ m₃ _ h₃ => ?_
      exact (remove_agrees h₃.anyBackbones id inner).bind fun g₄ m₄ _ h₄ => relink_agrees h₄.tablesFit _
    · have hrescued (target : ScopeId) : Agrees (TablesFit kept)
          ((do remove (← inner.foldlM (rescue target) g) id inner : Cached Graph).run m)
          (do (← inner.foldlM (Graph.rescue target) g).remove id inner) :=
        .bind (.foldlM (fun g₁ s m₁ h₁ => rescue_agrees h₁ target s) inner h) fun g₁ m₁ _ h₁ =>
          (remove_agrees h₁.anyBackbones id inner).mono fun _ _ _ h₂ => h₂.tablesFit
      split
      · exact (remove_agrees h.anyBackbones id inner).mono fun _ _ _ h₂ => h₂.tablesFit
      · cases this.scope with
        | some target => exact hrescued target
        | none => exact .lift_bind fun target _ => hrescued target

theorem destroy_agrees (h : TablesFit kept g m) (id : NodeId) (sideEffects : Bool) :
    Agrees (TablesFit kept) ((destroy g id sideEffects).run m) (g.destroy id sideEffects) := destroyWithin_agrees h id

theorem forgetAll {raws : List Nat} :
    (∀ x f ids, (raws.foldl Memo.forget m).neighbours? x f = some ids → m.neighbours? x f = some ids) ∧
      ∀ t path, (raws.foldl Memo.forget m).backbone? t = some path → m.backbone? t = some path ∧ t.raw ∉ raws := by
  induction raws generalizing m with
  | nil => exact ⟨fun _ _ _ hx => hx, fun _ _ ht => ⟨ht, List.not_mem_nil⟩⟩
  | cons raw rest ih =>
    obtain ⟨hneighbours, hbackbones⟩ := ih (m := m.forget raw)
    refine ⟨fun x f ids hx => ?_, fun t path ht => ?_⟩
    · have hx := hneighbours x f ids hx
      rw [Memo.neighbours?_forget] at hx
      split at hx
      next => cases hx
      next => exact hx
    · obtain ⟨ht, hrest⟩ := hbackbones t path ht
      rw [Memo.backbone?_forget] at ht
      split at ht
      next => cases ht
      next hne => exact ⟨ht, by rw [List.mem_cons, not_or]; exact ⟨hne, hrest⟩⟩

theorem reset_eq : g.reset = (match cleared g with
    | .error e => throw (.mistyped e)
    | .ok arena =>
      ({ g with arena, nodes := [], valueLinks := [], flowLinks := [] }.emit .reset).spawnEntryPoint) := by
  rw [Graph.reset]
  split
  next arena hcleared => rw [show cleared g = .ok arena from hcleared]; rfl
  next e hcleared => rw [show cleared g = .error e from hcleared]; rfl

theorem reset_agrees (h : Coherent g m) : Agrees NoBackbones ((reset g).run m) g.reset := by
  rw [reset_eq, reset]
  cases hcleared : cleared g with
  | error e => exact .fault _
  | ok arena =>
    refine spawnEntryPoint_agrees (h.linked (fun x f ids n' hx hn' => ⟨forgetAll.1 x f ids hx, n', ?_, rfl⟩) ?_)
    · simp only [cleared, bind_eq_ok, pure_eq_ok] at hcleared
      obtain ⟨⟨_, arena₁⟩, hnodes, ⟨_, arena₂⟩, hscopes, rfl⟩ := hcleared
      have hx := ((Arena.item?_destroyAll hscopes).2 .node (by decide) x).symm.trans hn'
      rw [(Arena.item?_destroyAll hnodes).1] at hx
      split at hx
      next => cases hx
      next => exact hx
    · intro t path ht
      obtain ⟨ht, hnot⟩ := forgetAll.2 t path ht
      obtain ⟨thread, hthread, -⟩ := bind_eq_ok.1 (h.backbone ht)
      obtain ⟨sc, hsc, -⟩ := bind_eq_ok.1 hthread
      have hmem := Arena.mem_handles (Graph.scope_eq_ok_iff.1 hsc)
      exact hnot (List.mem_append_right _ (List.mem_map_of_mem hmem))

theorem createReference_agrees (h : TablesFit kept g m) (source : NodeId) (s : ScopeId) :
    Agrees (fun r m' => TablesFit kept r.1 m') ((createReference g source s).run m) (g.createReference source s) := by
  refine .lift_bind fun found _ => ?_
  cases found with
  | none => exact .ok h
  | some target =>
    dsimp only
    split
    · exact .ok h
    refine .lift_bind fun output _ => ?_
    cases output with
    | none => exact .ok h
    | some output =>
      refine (spawn_into_agrees h.anyBackbones _ none s).bind fun r m₁ _ h₁ => ?_
      have h₁ : TablesFit kept r.2 m₁ := h₁.tablesFit
      refine (connect_agrees h₁ output ⟨r.1, ⟨0⟩⟩ false).bind fun r' m₂ _ h₂ => ?_
      obtain ⟨g₂, result⟩ := r'
      cases result with
      | ok _ => exact .ok h₂
      | error e => exact (destroy_agrees h₂ r.1 false).bind fun g₃ m₃ _ h₃ => .ok h₃

theorem mergeTarget?_agrees (h : TablesFit kept g m) (hn : g.nodeAt? id = some n) (target : Slot) :
    Agrees (fun _ m' => TablesFit kept g m') ((mergeTarget? id n target).run m)
      (.ok (Graph.mergeTarget? n target)) := by
  rw [mergeTarget?, Graph.mergeTarget?]
  by_cases hkind : n.kind = .literal
  · rw [if_neg (not_not.2 hkind)]
    refine .bind_left (neighbours_agreesUpTo h hn .output) fun m₁ h₁ => ?_
    by_cases houtputs : n.adjacentNodes .output = []
    · simp only [houtputs, hkind, Node.outputs, ne_eq, not_true_eq_false, if_false, true_and]
      exact .ok h₁
    · rw [if_pos houtputs, if_neg fun hmerge => houtputs hmerge.2.1]
      exact .ok h₁
  · rw [if_pos hkind, if_neg fun hmerge => hkind hmerge.1]
    exact .ok h

theorem samePathData_modifyProperty (i : Nat) (f : Property → Property) :
    Graph.SamePathData (g.modifyNode id (·.modifyProperty i f)) g := by
  constructor
  · intro x n hn
    rw [Graph.nodeAt?_modifyNode, hn]
    split
    next => exact ⟨_, rfl, rfl, rfl, rfl⟩
    next => exact ⟨n, rfl, rfl, rfl, rfl⟩
  · intro s sc hsc
    exact ⟨sc, (Graph.scopeAt?_modifyNode _ s).trans hsc, rfl, rfl⟩

theorem coherent_modifyProperty (h : Coherent g m) (i : Nat) (f : Property → Property) :
    Coherent (g.modifyNode id (·.modifyProperty i f)) m :=
  TablesFit.sameLinkage h (.modifyNode fun _ => by rfl) fun s _ hs => (samePathData_modifyProperty i f).backbone s _
    (h.backbone hs)

theorem link_agrees (h : TablesFit kept g m) (output input : SlotRef) : Agrees (fun r m' => TablesFit kept r.1 m')
    ((do
      let (g, result) ← connect g output input true
      return (g, result.map some) : Cached (Graph × Except ConnectError (Option Link))).run m)
    (do
      let (g, result) ← g.connect output input true
      return (g, result.map some)) :=
  (connect_agrees h output input true).bind fun _ _ _ h₁ => .ok h₁

theorem connectOrMerge_agrees (h : Coherent g m) (output input : SlotRef) :
    Agrees (fun r m' => Coherent r.1 m') ((connectOrMerge g output input).run m) (g.connectOrMerge output input) := by
  rw [connectOrMerge, Graph.connectOrMerge]
  split
  · exact link_agrees h output input
  refine .lift_bind fun found hfound => ?_
  cases found with
  | none => exact .ok h
  | some source =>
    refine .lift_bind fun looked _ => ?_
    cases looked with
    | error e => exact .ok h
    | ok target =>
      dsimp only
      refine .bind_left (mergeTarget?_agrees h (Graph.nodeAt?_of_node? hfound) target) fun m₁ h₁ => ?_
      cases Graph.mergeTarget? source target with
      | none => exact link_agrees h₁ output input
      | some property =>
        refine (destroy_agrees (coherent_modifyProperty h₁ property _) output.node true).bind fun g₂ m₂ _ h₂ => ?_
        exact .ok h₂

end FlowGraph.Cached
