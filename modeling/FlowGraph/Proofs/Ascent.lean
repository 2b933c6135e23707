import FlowGraph.Proofs.Enrollment

/-!
# The way up

The way up from a scope goes from a partition to the scope it is part of, and from an internal scope to the one
its owner is in. A node may enter a scope whose way up ends and does not pass a scope of that node; every other
way up then still ends.
-/

namespace FlowGraph.Graph

inductive OwnersOnPath (g : Graph) (p : NodeId → Prop) : ScopeId → Prop
  | part {s t : ScopeId} {sc : Scope} {i : Nat} : g.scopeAt? s = some sc → sc.kind = .partition t i →
      OwnersOnPath g p t → OwnersOnPath g p s
  | out {s : ScopeId} {sc : Scope} {n : Node} : g.scopeAt? s = some sc → sc.kind = .internal →
      g.nodeAt? sc.owner = some n → p sc.owner → n.scope = none → OwnersOnPath g p s
  | through {s t : ScopeId} {sc : Scope} {n : Node} : g.scopeAt? s = some sc → sc.kind = .internal →
      g.nodeAt? sc.owner = some n → p sc.owner → n.scope = some t → OwnersOnPath g p t → OwnersOnPath g p s

variable {g g' : Graph} {p q : NodeId → Prop} {id : NodeId} {s t : ScopeId}

theorem parentScope?_eq_ok_iff {parent : Option ScopeId} : g.parentScope? s = .ok parent ↔
    ∃ sc, g.scopeAt? s = some sc ∧ ((∃ t i, sc.kind = .partition t i ∧ parent = some t) ∨
      sc.kind = .internal ∧ ∃ n, g.nodeAt? sc.owner = some n ∧ parent = n.scope) := by
  simp only [parentScope?, bind_eq_ok, scope_eq_ok_iff]
  refine exists_congr fun sc => and_congr_right fun _ => ?_
  cases hkind : sc.kind with
  | partition t i =>
    rw [pure_eq_ok]
    constructor
    · rintro rfl
      exact .inl ⟨t, i, rfl, rfl⟩
    · rintro (⟨t', i', ⟨⟩, rfl⟩ | ⟨hother, -⟩)
      · rfl
      · cases hother
  | internal =>
    simp only [bind_eq_ok, node_eq_ok_iff, pure_eq_ok]
    constructor
    · rintro ⟨n, hn, rfl⟩
      exact .inr ⟨trivial, n, hn, rfl⟩
    · rintro (⟨t', i', hother, -⟩ | ⟨-, n, hn, rfl⟩)
      · cases hother
      · exact ⟨n, hn, rfl⟩

namespace OwnersOnPath

/-- A way up stays as long as the nodes and scopes on it, unless a node leaves its scope and ends it there. -/
theorem transport (h : OwnersOnPath g p s)
    (hscopes : ∀ t sc, g.scopeAt? t = some sc → ∃ sc', g'.scopeAt? t = some sc' ∧ sc'.skeleton = sc.skeleton)
    (hnodes : ∀ x n, g.nodeAt? x = some n → p x →
      q x ∧ ∃ n', g'.nodeAt? x = some n' ∧ (n'.scope = n.scope ∨ n'.scope = none)) : OwnersOnPath g' q s := by
  induction h with
  | part hsc hkind _ ih =>
    obtain ⟨sc', hsc', hskeleton⟩ := hscopes _ _ hsc
    obtain ⟨-, hkind', -⟩ := Scope.of_skeleton hskeleton
    exact .part hsc' (hkind'.trans hkind) ih
  | out hsc hkind hn hp hnone =>
    obtain ⟨sc', hsc', hskeleton⟩ := hscopes _ _ hsc
    obtain ⟨howner, hkind', -⟩ := Scope.of_skeleton hskeleton
    obtain ⟨hq, n', hn', hscope⟩ := hnodes _ _ hn hp
    rw [hnone, or_self] at hscope
    exact .out hsc' (hkind'.trans hkind) (howner ▸ hn') (howner ▸ hq) hscope
  | through hsc hkind hn hp ht _ ih =>
    obtain ⟨sc', hsc', hskeleton⟩ := hscopes _ _ hsc
    obtain ⟨howner, hkind', -⟩ := Scope.of_skeleton hskeleton
    obtain ⟨hq, n', hn', hscope⟩ := hnodes _ _ hn hp
    rcases hscope with hscope | hnone
    · exact .through hsc' (hkind'.trans hkind) (howner ▸ hn') (howner ▸ hq) (hscope.trans ht) ih
    · exact .out hsc' (hkind'.trans hkind) (howner ▸ hn') (howner ▸ hq) hnone

theorem mono (h : OwnersOnPath g p s) (hq : ∀ x, p x → q x) : OwnersOnPath g q s :=
  h.transport (fun _ sc hsc => ⟨sc, hsc, rfl⟩) fun x n hn hp => ⟨hq x hp, n, hn, .inl rfl⟩

/-- Scopes of which each lies in another one have no way up that ends. -/
theorem false_of_closed {T : ScopeId → Prop} (hclosed : ∀ s, T s → ∃ sc, g.scopeAt? s = some sc ∧
      ((∃ t i, sc.kind = .partition t i ∧ T t) ∨
        sc.kind = .internal ∧ ∃ n t, g.nodeAt? sc.owner = some n ∧ n.scope = some t ∧ T t))
    (h : OwnersOnPath g p s) : ¬T s := by
  induction h with
  | part hsc hkind _ ih =>
    intro hs
    obtain ⟨sc, hsc', hup⟩ := hclosed _ hs
    obtain rfl := Option.some.inj (hsc.symm.trans hsc')
    rcases hup with ⟨t, i, hkind', ht⟩ | ⟨hkind', -⟩
    · cases hkind.symm.trans hkind'
      exact ih ht
    · cases hkind.symm.trans hkind'
  | out hsc hkind hn _ hnone =>
    intro hs
    obtain ⟨sc, hsc', hup⟩ := hclosed _ hs
    obtain rfl := Option.some.inj (hsc.symm.trans hsc')
    rcases hup with ⟨t, i, hkind', -⟩ | ⟨-, n, t, hn', ht, -⟩
    · cases hkind.symm.trans hkind'
    · obtain rfl := Option.some.inj (hn.symm.trans hn')
      cases hnone.symm.trans ht
  | through hsc hkind hn _ ht _ ih =>
    intro hs
    obtain ⟨sc, hsc', hup⟩ := hclosed _ hs
    obtain rfl := Option.some.inj (hsc.symm.trans hsc')
    rcases hup with ⟨t', i, hkind', -⟩ | ⟨-, n, t', hn', ht', hT⟩
    · cases hkind.symm.trans hkind'
    · obtain rfl := Option.some.inj (hn.symm.trans hn')
      cases ht.symm.trans ht'
      exact ih hT

theorem of_anyOnPathWithin {k : Nat}
    (h : g.anyOnPathWithin (fun t => do return (← g.scope t).owner == id) k s = .ok false) :
    OwnersOnPath g (· ≠ id) s := by
  induction k generalizing s with
  | zero => cases h
  | succ k ih =>
    simp only [anyOnPathWithin, bind_eq_ok] at h
    obtain ⟨parent, hparent, found, hfound, h⟩ := h
    simp only [scope_eq_ok_iff, pure_eq_ok] at hfound
    obtain ⟨sc, hsc, hfound⟩ := hfound
    split at h
    next => cases h
    next hmiss =>
      rw [← hfound, Bool.not_eq_true, beq_eq_false_iff_ne] at hmiss
      obtain ⟨sc', hsc', hup⟩ := parentScope?_eq_ok_iff.1 hparent
      obtain rfl := Option.some.inj (hsc.symm.trans hsc')
      rcases hup with ⟨t, i, hkind, rfl⟩ | ⟨hkind, n, hn, rfl⟩
      · exact .part hsc hkind (ih h)
      · cases ht : n.scope with
        | none => exact .out hsc hkind hn hmiss ht
        | some t =>
          rw [ht] at h
          exact .through hsc hkind hn hmiss ht (ih h)

theorem owner {sc : Scope} (h : OwnersOnPath g p s) (hsc : g.scopeAt? s = some sc) (hkind : sc.kind = .internal) :
    p sc.owner := by
  cases h with
  | part hsc' hkind' =>
    obtain rfl := Option.some.inj (hsc.symm.trans hsc')
    cases hkind.symm.trans hkind'
  | out hsc' _ _ hp =>
    obtain rfl := Option.some.inj (hsc.symm.trans hsc')
    exact hp
  | through hsc' _ _ hp =>
    obtain rfl := Option.some.inj (hsc.symm.trans hsc')
    exact hp

theorem owner_live {sc : Scope} (h : OwnersOnPath g p s) (hsc : g.scopeAt? s = some sc) (hkind : sc.kind = .internal) :
    ∃ n, g.nodeAt? sc.owner = some n := by
  cases h with
  | part hsc' hkind' =>
    obtain rfl := Option.some.inj (hsc.symm.trans hsc')
    cases hkind.symm.trans hkind'
  | out hsc' _ hn =>
    obtain rfl := Option.some.inj (hsc.symm.trans hsc')
    exact ⟨_, hn⟩
  | through hsc' _ hn =>
    obtain rfl := Option.some.inj (hsc.symm.trans hsc')
    exact ⟨_, hn⟩

theorem live (h : OwnersOnPath g p s) : ∃ sc, g.scopeAt? s = some sc := by
  cases h with
  | part hsc => exact ⟨_, hsc⟩
  | out hsc => exact ⟨_, hsc⟩
  | through hsc => exact ⟨_, hsc⟩

theorem parent (h : OwnersOnPath g p s) (hparent : g.parentScope? s = .ok (some t)) : OwnersOnPath g p t := by
  obtain ⟨sc, hsc, hup⟩ := parentScope?_eq_ok_iff.1 hparent
  cases h with
  | part hsc' hkind' h' =>
    obtain rfl := Option.some.inj (hsc.symm.trans hsc')
    rcases hup with ⟨t', i, hkind, ⟨⟩⟩ | ⟨hkind, -⟩
    · cases hkind.symm.trans hkind'
      exact h'
    · cases hkind.symm.trans hkind'
  | out hsc' hkind' hn' _ hnone =>
    obtain rfl := Option.some.inj (hsc.symm.trans hsc')
    rcases hup with ⟨t', i, hkind, -⟩ | ⟨-, n, hn, ht⟩
    · cases hkind.symm.trans hkind'
    · obtain rfl := Option.some.inj (hn.symm.trans hn')
      cases hnone.symm.trans ht.symm
  | through hsc' hkind' hn' _ ht' h' =>
    obtain rfl := Option.some.inj (hsc.symm.trans hsc')
    rcases hup with ⟨t', i, hkind, -⟩ | ⟨-, n, hn, ht⟩
    · cases hkind.symm.trans hkind'
    · obtain rfl := Option.some.inj (hn.symm.trans hn')
      cases ht.trans ht'
      exact h'

end OwnersOnPath

def OwnsNoScope (g : Graph) (id : NodeId) : Prop :=
  ∀ t sc, g.scopeAt? t = some sc → sc.kind = .internal → sc.owner ≠ id

theorem OwnsNoScope.allKept (h : OwnsNoScope g id) (hs : AllKept g g') : OwnsNoScope g' id := by
  intro t sc' hsc' hkind
  obtain ⟨sc, hsc, hskeleton⟩ := hs.scope hsc'
  obtain ⟨howner, hkind', -⟩ := Scope.of_skeleton hskeleton
  rw [howner]
  exact h t sc hsc (hkind'.symm.trans hkind)

theorem OwnersOnPath.avoids (h : OwnersOnPath g p s) (hid : OwnsNoScope g id) :
    OwnersOnPath g (fun x => p x ∧ x ≠ id) s := by
  induction h with
  | part hsc hkind _ ih => exact .part hsc hkind ih
  | out hsc hkind hn hp hnone => exact .out hsc hkind hn ⟨hp, hid _ _ hsc hkind⟩ hnone
  | through hsc hkind hn hp ht _ ih => exact .through hsc hkind hn ⟨hp, hid _ _ hsc hkind⟩ ht ih

def clear (g : Graph) (id : NodeId) (s : ScopeId) : Prop := OwnersOnPath g (· ≠ id) s

theorem clear_of_check (h : g.targetError? id s = .ok none) : clear g id s := by
  simp only [targetError?, bind_eq_ok] at h
  obtain ⟨sc, -, h⟩ := h
  split at h
  next => cases h
  next =>
    obtain ⟨found, hfound, h⟩ := bind_eq_ok.1 h
    cases found with
    | true => cases h
    | false => exact .of_anyOnPathWithin hfound

theorem Move.descoped (h : Move never g g') {x : NodeId} {n : Node} (hn : g.nodeAt? x = some n) :
    ∃ n', g'.nodeAt? x = some n' ∧ (n'.scope = n.scope ∨ n'.scope = none) := by
  cases h with
  | note e => exact ⟨n, hn, .inl rfl⟩
  | enter _ _ _ hmay => exact hmay.elim
  | leave =>
    rw [nodeAt?_displace]
    split
    next => exact ⟨_, congrArg (Option.map _) hn, .inr rfl⟩
    next => exact ⟨n, hn, .inl rfl⟩
  | declare => exact ⟨n, by rwa [nodeAt?_modifyScope], .inl rfl⟩
  | lead => exact ⟨n, by rwa [nodeAt?_modifyScope], .inl rfl⟩

theorem OwnersOnPath.move_never (h : OwnersOnPath g p s) (hmove : Move never g g') : OwnersOnPath g' p s :=
  h.transport (fun _ _ => hmove.allKept.scope_of) fun _ _ hn hp => ⟨hp, hmove.descoped hn⟩

theorem guards_clear : Guards clear := fun _ => ⟨clear_of_check, fun hmove h => h.move_never hmove⟩

theorem allKept_place : AllKept g (g.place id s) :=
  (allKept_modifyNode (f := ({ · with scope := some s })) fun _ => by rfl).trans (allKept_modifyScope fun _ => by rfl)

theorem nodeAt?_place_ne {x : NodeId} {m : Node} (hm : g.nodeAt? x = some m) (hx : x ≠ id) :
    (g.place id s).nodeAt? x = some m := by
  rw [nodeAt?_place, if_neg hx, hm]

theorem OwnersOnPath.place_apart (h : OwnersOnPath g p t) (hp : ∀ x, p x → x ≠ id) : OwnersOnPath (g.place id s) p t :=
  h.transport (fun _ _ => allKept_place.scope_of) fun _ m hm hpx =>
    ⟨hpx, m, nodeAt?_place_ne hm (hp _ hpx), .inl rfl⟩

/-- Where the way up passes a scope of the node that enters, it goes on from the scope that is entered. -/
theorem OwnersOnPath.place {n : Node} (h : OwnersOnPath g p t) (hn : g.nodeAt? id = some n) (hclear : clear g id s)
    (hp : ∀ x, x ≠ id → p x) : OwnersOnPath (g.place id s) p t := by
  have hallKept : AllKept g (g.place id s) := allKept_place
  have hself : (g.place id s).nodeAt? id = some { n with scope := some s } := nodeAt?_place_self hn
  have htarget : OwnersOnPath (g.place id s) p s := (OwnersOnPath.place_apart hclear fun _ hx => hx).mono hp
  induction h with
  | part hsc hkind _ ih =>
    obtain ⟨sc', hsc', hskeleton⟩ := hallKept.scope_of hsc
    obtain ⟨-, hkind', -⟩ := Scope.of_skeleton hskeleton
    exact .part hsc' (hkind'.trans hkind) ih
  | @out _ sc _ hsc hkind hm hpx hnone =>
    obtain ⟨sc', hsc', hskeleton⟩ := hallKept.scope_of hsc
    obtain ⟨howner, hkind', -⟩ := Scope.of_skeleton hskeleton
    by_cases hx : sc.owner = id
    · have howns : (g.place id s).nodeAt? sc'.owner = some { n with scope := some s } := by rw [howner, hx, hself]
      exact .through hsc' (hkind'.trans hkind) howns (howner ▸ hpx) rfl htarget
    · exact .out hsc' (hkind'.trans hkind) (howner ▸ nodeAt?_place_ne hm hx) (howner ▸ hpx) hnone
  | @through _ _ sc _ hsc hkind hm hpx ht _ ih =>
    obtain ⟨sc', hsc', hskeleton⟩ := hallKept.scope_of hsc
    obtain ⟨howner, hkind', -⟩ := Scope.of_skeleton hskeleton
    by_cases hx : sc.owner = id
    · have howns : (g.place id s).nodeAt? sc'.owner = some { n with scope := some s } := by rw [howner, hx, hself]
      exact .through hsc' (hkind'.trans hkind) howns (howner ▸ hpx) rfl htarget
    · exact .through hsc' (hkind'.trans hkind) (howner ▸ nodeAt?_place_ne hm hx) (howner ▸ hpx) ht ih

theorem OwnersOnPath.move (h : OwnersOnPath g (fun _ => True) t) (hmove : Move clear g g') :
    OwnersOnPath g' (fun _ => True) t := by
  cases hmove with
  | note e => exact h.move_never (.note e)
  | enter hn _ _ hclear => exact h.place hn hclear fun _ _ => trivial
  | leave hn hscope hsc => exact h.move_never (.leave hn hscope hsc)
  | declare hsc hchild hn hvar hfree => exact h.move_never (.declare hsc hchild hn hvar hfree)
  | lead hsc hhead => exact h.move_never (.lead hsc hhead)

structure ScopePathsEnd (g : Graph) : Prop where
  home {x : NodeId} {n : Node} {t : ScopeId} : g.nodeAt? x = some n → n.scope = some t →
    ∃ sc, g.scopeAt? t = some sc
  ownersOnPath {t : ScopeId} {sc : Scope} : g.scopeAt? t = some sc → OwnersOnPath g (fun _ => True) t

namespace ScopePathsEnd

theorem allKept (h : ScopePathsEnd g) (hs : AllKept g g')
    (hhome : ∀ x n' t, g'.nodeAt? x = some n' → n'.scope = some t →
      (∃ n, g.nodeAt? x = some n ∧ n.scope = some t) ∨ ∃ sc, g.scopeAt? t = some sc)
    (hownersOnPath : ∀ t, OwnersOnPath g (fun _ => True) t → OwnersOnPath g' (fun _ => True) t) : ScopePathsEnd g' := by
  refine ⟨?_, ?_⟩
  · intro x n' t hn' ht
    have hlive : ∃ sc, g.scopeAt? t = some sc := by
      rcases hhome x n' t hn' ht with ⟨n, hn, ht'⟩ | hlive
      · exact h.home hn ht'
      · exact hlive
    obtain ⟨sc, hsc⟩ := hlive
    obtain ⟨sc', hsc', -⟩ := hs.scope_of hsc
    exact ⟨sc', hsc'⟩
  · intro t sc' hsc'
    obtain ⟨sc, hsc, -⟩ := hs.scope hsc'
    exact hownersOnPath t (h.ownersOnPath hsc)

theorem sameFrames (h : ScopePathsEnd g) (hsameFrames : SameFrames g g') : ScopePathsEnd g' := by
  have hscopes {t : ScopeId} {sc : Scope} (hsc : g.scopeAt? t = some sc) :
      ∃ sc', g'.scopeAt? t = some sc' ∧ sc'.skeleton = sc.skeleton :=
    ⟨sc, (hsameFrames.scopes t).trans hsc, rfl⟩
  refine ⟨?_, ?_⟩
  · intro x n' t hn' ht
    obtain ⟨n, hn, hframe⟩ := hsameFrames.symm.node hn'
    obtain ⟨sc, hsc⟩ := h.home hn ((Node.of_frame hframe).1.trans ht)
    exact ⟨sc, (hsameFrames.scopes t).trans hsc⟩
  · intro t sc hsc
    refine (h.ownersOnPath ((hsameFrames.scopes t).symm.trans hsc)).transport (fun _ _ => hscopes) fun x n hn _ => ?_
    obtain ⟨n', hn', hframe⟩ := hsameFrames.node hn
    exact ⟨trivial, n', hn', .inl (Node.of_frame hframe).1⟩

theorem move (h : ScopePathsEnd g) (hmove : Move clear g g') : ScopePathsEnd g' :=
  h.allKept hmove.allKept (fun _ _ _ hn' ht => (hmove.scope_of hn' ht).imp_right And.right) fun _ ht => ht.move hmove

theorem changes (h : ScopePathsEnd g) (hchanges : Changes clear g g') : ScopePathsEnd g' := by
  induction hchanges with
  | refl => exact h
  | tail _ hchange ih =>
    rcases hchange.move_or_sameFrames with hmove | hsameFrames
    · exact ih.move hmove
    · exact ih.sameFrames hsameFrames

theorem removesNode (h : ScopePathsEnd g) (hs : RemovesNode g id [] g') (hid : OwnsNoScope g id) :
    ScopePathsEnd g' := by
  have hscopes (t : ScopeId) : g'.scopeAt? t = g.scopeAt? t := by
    rw [hs.scopeAt?, if_neg List.not_mem_nil]
  refine ⟨?_, ?_⟩
  · intro x n t hn ht
    rw [hs.nodeAt?] at hn
    split at hn
    next => cases hn
    next =>
      rw [hscopes]
      exact h.home hn ht
  · intro t sc hsc
    rw [hscopes] at hsc
    refine ((h.ownersOnPath hsc).avoids hid).transport (fun t sc hsc => ⟨sc, by rw [hscopes, hsc], rfl⟩) ?_
    rintro x n hn ⟨-, hx⟩
    exact ⟨trivial, n, by rw [hs.nodeAt?, if_neg hx, hn], .inl rfl⟩

end ScopePathsEnd

end FlowGraph.Graph
