import FlowGraph.Proofs.Ancestors
import FlowGraph.Proofs.Inventory

/-!
# Down and up

A walk down reads what scopes hold, a walk up where their owners are. Scopes agree with nodes about that, so a walk down
comes to the scopes whose way up comes here, and to each of them once: a scope lies in one scope only, which holds it
once. A walk down a number of levels comes to those whose way up is longer by no more than that.
-/

namespace FlowGraph

section

variable {ε α β : Type}

theorem nodup_filterMapM {f : α → Except ε (Option β)} {as : List α} {bs : List β} (h : as.filterMapM f = .ok bs)
    (has : as.Nodup) (hinj : ∀ a a' b, f a = .ok (some b) → f a' = .ok (some b) → a = a') : bs.Nodup := by
  induction as generalizing bs with
  | nil =>
    cases h
    exact List.nodup_nil
  | cons a as ih =>
    obtain ⟨hnew, has⟩ := List.nodup_cons.1 has
    rw [List.filterMapM_cons] at h
    obtain ⟨found, hfound, h⟩ := bind_eq_ok.1 h
    cases found with
    | none => exact ih h has
    | some b =>
      obtain ⟨rest, hrest, ⟨⟩⟩ := bind_eq_ok.1 h
      refine List.nodup_cons.2 ⟨fun hb => hnew ?_, ih hrest has⟩
      obtain ⟨a', ha', hf⟩ := of_mem_filterMapM hrest hb
      rwa [hinj a a' b hfound hf]

theorem exists_cons_suffix {as bs : List α} (h : as <:+ bs) (hlt : as.length < bs.length) : ∃ a, a :: as <:+ bs := by
  obtain ⟨cs, rfl⟩ := h
  rcases List.eq_nil_or_concat cs with rfl | ⟨cs, a, rfl⟩
  · exact (Nat.lt_irrefl _ hlt).elim
  · exact ⟨a, cs, by rw [List.concat_eq_append, ← List.append_cons]⟩

theorem nodup_flatten_mapM {f : α → Except ε (List β)} {as : List α} {lists : List (List β)}
    (h : as.mapM f = .ok lists) (has : as.Nodup) (hnodup : ∀ a ∈ as, ∀ l, f a = .ok l → l.Nodup)
    (hapart : ∀ a ∈ as, ∀ a' ∈ as, ∀ l l' b, f a = .ok l → f a' = .ok l' → b ∈ l → b ∈ l' → a = a') :
    lists.flatten.Nodup := by
  induction as generalizing lists with
  | nil =>
    cases h
    exact List.nodup_nil
  | cons a as ih =>
    obtain ⟨hnew, has⟩ := List.nodup_cons.1 has
    rw [List.mapM_cons] at h
    obtain ⟨l, hl, h⟩ := bind_eq_ok.1 h
    obtain ⟨rest, hrest, ⟨⟩⟩ := bind_eq_ok.1 h
    have hlater {a' : α} (ha' : a' ∈ as) : a' ∈ a :: as := List.mem_cons_of_mem a ha'
    rw [List.flatten_cons, List.nodup_append]
    refine ⟨hnodup a List.mem_cons_self l hl, ih hrest has (fun a' ha' => hnodup a' (hlater ha'))
      fun a₁ h₁ a₂ h₂ => hapart a₁ (hlater h₁) a₂ (hlater h₂), ?_⟩
    rintro b hb _ hb' rfl
    obtain ⟨l', hl', hb'⟩ := List.mem_flatten.1 hb'
    obtain ⟨a', ha', hf⟩ := of_mem_mapM hrest hl'
    exact hnew (hapart a List.mem_cons_self a' (hlater ha') l l' b hl hf hb hb' ▸ ha')

end

namespace Graph

variable {g : Graph} {s t c : ScopeId} {p q inner : List ScopeId} {k : Nat}
  {beyond : Except Fault (List ScopeId)}

theorem PathUp.parent (h : PathUp g c (c :: q)) (hs : PathUp g s q) : g.parentScope? c = .ok (some s) := by
  cases h with
  | top => exact (hs.ne_nil rfl).elim
  | up hparent hs' =>
    cases hs.head?.symm.trans hs'.head?
    exact hparent

theorem length_le_of_pathWithin (h : g.pathWithin k s = .ok p) : p.length ≤ k := by
  induction k generalizing s p with
  | zero => cases h
  | succ k ih =>
    obtain ⟨parent, -, h⟩ := bind_eq_ok.1 h
    cases parent with
    | none =>
      cases h
      exact Nat.succ_le_succ (Nat.zero_le k)
    | some t =>
      obtain ⟨rest, hrest, ⟨⟩⟩ := bind_eq_ok.1 h
      exact Nat.succ_le_succ (ih hrest)

theorem PathUp.mem_cons_iff (hs : PathUp g s q)
    (hinner : t ∈ inner ↔ ∃ p, PathUp g t p ∧ q <:+ p ∧ q.length < p.length ∧ p.length ≤ q.length + k) :
    t ∈ s :: inner ↔ ∃ p, PathUp g t p ∧ q <:+ p ∧ p.length ≤ q.length + k := by
  rw [List.mem_cons, hinner]
  constructor
  · rintro (rfl | ⟨p, hp, hsuffix, -, hle⟩)
    · exact ⟨q, hs, List.suffix_rfl, Nat.le_add_right _ _⟩
    · exact ⟨p, hp, hsuffix, hle⟩
  · rintro ⟨p, hp, hsuffix, hle⟩
    rcases Nat.lt_or_ge q.length p.length with hlt | hge
    · exact .inr ⟨p, hp, hsuffix, hlt, hle⟩
    · cases hsuffix.eq_of_length_le hge
      exact .inl (Option.some.inj (hp.head?.symm.trans hs.head?))

namespace EditInvariant

/-- A walk down some levels comes to the scopes whose way up goes on here, and is that much longer. -/
theorem mem_below_iff (h : EditInvariant True g) (hbeyond : ∀ l, beyond = .ok l → l = []) (hs : PathUp g s q)
    (hinner : g.below beyond k s = .ok inner) :
    t ∈ inner ↔ ∃ p, PathUp g t p ∧ q <:+ p ∧ q.length < p.length ∧ p.length ≤ q.length + k := by
  induction k generalizing s q inner with
  | zero =>
    rw [hbeyond inner hinner]
    refine iff_of_false List.not_mem_nil ?_
    rintro ⟨p, -, -, hlt, hle⟩
    omega
  | succ k ih =>
    simp only [below, bind_eq_ok, pure_eq_ok] at hinner
    obtain ⟨children, hchildren, lists, hlists, rfl⟩ := hinner
    constructor
    · intro hmem
      obtain ⟨l, hl, hmem⟩ := List.mem_flatten.1 hmem
      obtain ⟨c, hc, hdown⟩ := of_mem_mapM hlists hl
      obtain ⟨nested, hnested, ⟨⟩⟩ := bind_eq_ok.1 hdown
      have hway : PathUp g c (c :: q) := .up (h.parent_of_mem_childScopes hchildren hc) hs
      obtain ⟨p, ht, hsuffix, hle⟩ := (hway.mem_cons_iff (ih hway hnested)).1 hmem
      have hlt : q.length < p.length := hsuffix.length_le
      rw [List.length_cons] at hle
      exact ⟨p, ht, (List.suffix_cons c q).trans hsuffix, hlt, by omega⟩
    · rintro ⟨p, ht, hsuffix, hlt, hle⟩
      obtain ⟨c, hsuffix⟩ := exists_cons_suffix hsuffix hlt
      obtain ⟨c', hc', -⟩ := ht.of_suffix hsuffix (List.cons_ne_nil c q)
      cases hc'.head?
      have hc : c ∈ children :=
        childScopes_of_parent h.wellFormed.scopesOwned h.wellFormed.scopesMatchNodes (hc'.parent hs) hchildren
      obtain ⟨l, hl, hdown⟩ := exists_of_mem_mapM hlists hc
      obtain ⟨nested, hnested, ⟨⟩⟩ := bind_eq_ok.1 hdown
      refine List.mem_flatten.2 ⟨_, hl, (hc'.mem_cons_iff (ih hc' hnested)).2 ⟨p, ht, hsuffix, ?_⟩⟩
      rw [List.length_cons]
      omega

theorem not_mem_below_self (h : EditInvariant True g) (hbeyond : ∀ l, beyond = .ok l → l = []) (hs : PathUp g s q)
    (hinner : g.below beyond k s = .ok inner) : s ∉ inner := by
  intro hself
  obtain ⟨p, hp, -, hlt, -⟩ := (h.mem_below_iff hbeyond hs hinner).1 hself
  rw [hp.unique hs] at hlt
  exact Nat.lt_irrefl _ hlt

theorem nodup_partitions (h : EditInvariant True g) {sc : Scope} (hsc : g.scopeAt? s = some sc) :
    sc.partitions.Nodup := by
  obtain ⟨n, i, si, hn, hi, hsi, hs⟩ := h.wellFormed.scopesOwned.home hsc
  rcases hs with rfl | hs
  · cases hsc.symm.trans hsi
    have hinner : g.innerScopes sc.owner = .ok (s :: sc.partitions) :=
      innerScopes_eq_ok_iff.2 ⟨n, hn, .inr ⟨s, sc, hi, hsc, rfl⟩⟩
    exact (List.nodup_cons.1 (h.wellFormed.nodup_innerScopes hinner)).2
  · obtain ⟨sp, j, hsp, hkind⟩ := h.rootFinitelyNested.part_of_mem h.wellFormed.scopesOwned hsi hs
    cases hsc.symm.trans hsp
    rw [h.rootFinitelyNested.unsplit hsc hkind]
    exact List.nodup_nil

theorem nodup_childScopes (h : EditInvariant True g) (hinner : g.childScopes s = .ok inner) : inner.Nodup := by
  simp only [Graph.childScopes, bind_eq_ok, scope_eq_ok_iff, pure_eq_ok] at hinner
  obtain ⟨sc, hsc, blocks, hblocks, rfl⟩ := hinner
  have hblock {c : NodeId} {i : ScopeId} (hi : (do return (← g.node c).internalScope) = Except.ok (some i)) :
      ∃ si, g.scopeAt? i = some si ∧ si.owner = c ∧ si.kind = .internal := by
    simp only [bind_eq_ok, node_eq_ok_iff, pure_eq_ok] at hi
    obtain ⟨n, hn, hi⟩ := hi
    obtain ⟨si, hsi, howner, hkind, -⟩ := h.wellFormed.scopesOwned.internal hn hi
    exact ⟨si, hsi, howner, hkind⟩
  refine List.nodup_append.2 ⟨h.nodup_partitions hsc, nodup_filterMapM hblocks ?_ ?_, ?_⟩
  · exact (h.wellFormed.scopesMatchNodes.scopeMatchesNodes hsc).children_nodup
  · intro c c' i hc hc'
    obtain ⟨si, hsi, rfl, -⟩ := hblock hc
    obtain ⟨si', hsi', rfl, -⟩ := hblock hc'
    cases hsi.symm.trans hsi'
    rfl
  · rintro i hpart _ hmem rfl
    obtain ⟨c, -, hc⟩ := of_mem_filterMapM hblocks hmem
    obtain ⟨si, hsi, -, hkind⟩ := hblock hc
    obtain ⟨sp, j, hsp, hkind'⟩ := h.rootFinitelyNested.part_of_mem h.wellFormed.scopesOwned hsc hpart
    cases hsi.symm.trans hsp
    cases hkind.symm.trans hkind'

/-- A walk down comes to no scope twice: the branches that it takes are of different ways up. -/
theorem nodup_below (h : EditInvariant True g) (hbeyond : ∀ l, beyond = .ok l → l = []) (hs : PathUp g s q)
    (hinner : g.below beyond k s = .ok inner) : inner.Nodup := by
  induction k generalizing s q inner with
  | zero =>
    rw [hbeyond inner hinner]
    exact List.nodup_nil
  | succ k ih =>
    simp only [below, bind_eq_ok, pure_eq_ok] at hinner
    obtain ⟨children, hchildren, lists, hlists, rfl⟩ := hinner
    have hway {c : ScopeId} (hc : c ∈ children) : PathUp g c (c :: q) :=
      .up (h.parent_of_mem_childScopes hchildren hc) hs
    have hbranch {c t : ScopeId} {l : List ScopeId} (hc : c ∈ children)
        (hl : (do return c :: (← g.below beyond k c)) = Except.ok l) (ht : t ∈ l) : ∃ p, PathUp g t p ∧
        c :: q <:+ p := by
      obtain ⟨nested, hnested, ⟨⟩⟩ := bind_eq_ok.1 hl
      obtain ⟨p, hp, hsuffix, -⟩ := ((hway hc).mem_cons_iff (h.mem_below_iff hbeyond (hway hc) hnested)).1 ht
      exact ⟨p, hp, hsuffix⟩
    refine nodup_flatten_mapM hlists (h.nodup_childScopes hchildren) ?_ ?_
    · intro c hc l hl
      obtain ⟨nested, hnested, ⟨⟩⟩ := bind_eq_ok.1 hl
      exact List.nodup_cons.2 ⟨h.not_mem_below_self hbeyond (hway hc) hnested, ih (hway hc) hnested⟩
    · intro c hc c' hc' l l' t hl hl' ht ht'
      obtain ⟨p, hp, hsuffix⟩ := hbranch hc hl ht
      obtain ⟨p', hp', hsuffix'⟩ := hbranch hc' hl' ht'
      cases hp.unique hp'
      exact (List.cons.inj ((List.suffix_of_suffix_length_le hsuffix hsuffix' le_rfl).eq_of_length rfl)).1

theorem exists_below (h : EditInvariant True g) (hs : ∃ sc, g.scopeAt? s = some sc) (k : Nat) :
    ∃ inner, g.below (.ok []) k s = .ok inner := by
  induction k generalizing s with
  | zero => exact ⟨[], rfl⟩
  | succ k ih =>
    obtain ⟨children, hchildren⟩ := (h.childScopes fun _ => hs).exists_ok
    have hbranches : ∀ c ∈ children, ∃ l, (do return c :: (← g.below (.ok []) k c)) = Except.ok l := by
      intro c hc
      obtain ⟨sc, hsc, -⟩ := parentScope?_eq_ok_iff.1 (h.parent_of_mem_childScopes hchildren hc)
      obtain ⟨nested, hnested⟩ := ih ⟨sc, hsc⟩
      exact ⟨c :: nested, bind_eq_ok.2 ⟨nested, hnested, rfl⟩⟩
    obtain ⟨lists, hlists⟩ := exists_mapM hbranches
    exact ⟨lists.flatten, bind_eq_ok.2 ⟨children, hchildren, bind_eq_ok.2 ⟨lists, hlists, rfl⟩⟩⟩

theorem mem_descendants_iff (h : EditInvariant True g) (hs : PathUp g s q) {all : List ScopeId}
    (hall : g.descendants s none true = .ok all) (ht : g.path t = .ok p) : t ∈ all ↔ q <:+ p := by
  simp only [Graph.descendants, bind_eq_ok, pure_eq_ok, if_true] at hall
  obtain ⟨inner, hinner, rfl⟩ := hall
  have hway : PathUp g t p := .of_pathWithin ht
  rw [hs.mem_cons_iff (h.mem_below_iff (by rintro l ⟨⟩) hs hinner)]
  constructor
  · rintro ⟨p', hp', hsuffix, -⟩
    rwa [hway.unique hp']
  · exact fun hsuffix => ⟨p, hway, hsuffix, (length_le_of_pathWithin ht).trans (Nat.le_add_left _ _)⟩

theorem nodup_descendants (h : EditInvariant True g) (hs : PathUp g s q) {all : List ScopeId}
    (hall : g.descendants s none true = .ok all) : all.Nodup := by
  simp only [Graph.descendants, bind_eq_ok, pure_eq_ok, if_true] at hall
  obtain ⟨inner, hinner, rfl⟩ := hall
  exact List.nodup_cons.2 ⟨h.not_mem_below_self (by rintro l ⟨⟩) hs hinner, h.nodup_below (by rintro l ⟨⟩) hs hinner⟩

end EditInvariant

/-- A walk down from a scope comes exactly once to each scope that it is around, and a walk down a number of levels to
those that lie no more levels below it. -/
theorem Reachable.descendants_agree (hr : Reachable g) (hg : Consistent g) (hs : ∃ sc, g.scope s = .ok sc)
    (ht : ∃ st, g.scope t = .ok st) (k : Nat) :
    ∃ all near around ds dt, g.descendants s none true = .ok all ∧ g.descendants s (some k) false = .ok near ∧
      g.isAncestorOrSelf s t = .ok around ∧ g.depth s = .ok ds ∧ g.depth t = .ok dt ∧
      (t ∈ all ↔ around = true) ∧ (t ∈ all → all.count t = 1) ∧
      (t ∈ near ↔ (around = true ∧ s ≠ t) ∧ 1 ≤ dt - ds ∧ dt - ds ≤ k) := by
  have h := hr.editInvariant hg
  simp only [scope_eq_ok_iff] at hs ht
  obtain ⟨q, hq, hway⟩ := h.exists_pathUp hs
  obtain ⟨p, hp, hway'⟩ := h.exists_pathUp ht
  obtain ⟨all, hall⟩ := (h.descendants fun _ => hs).exists_ok
  obtain ⟨near, hnear⟩ := h.exists_below hs k
  obtain ⟨around, haround⟩ := h.exists_isAncestorOrSelf ht s
  have hwithin : around = true ↔ q <:+ p := by
    rw [isAncestorOrSelf_iff_of_ok haround, hway'.within_iff]
    constructor
    · rintro ⟨q', hq', hsuffix⟩
      rwa [hway.unique hq']
    · exact fun hsuffix => ⟨q, hway, hsuffix⟩
  refine ⟨all, near, around, q.length - 1, p.length - 1, hall, ?_, haround, ?_, ?_, ?_, ?_, ?_⟩
  · exact bind_eq_ok.2 ⟨near, hnear, rfl⟩
  · exact bind_eq_ok.2 ⟨q, hq, rfl⟩
  · exact bind_eq_ok.2 ⟨p, hp, rfl⟩
  · rw [h.mem_descendants_iff hway hall hp, hwithin]
  · exact List.count_eq_one_of_mem (h.nodup_descendants hway hall)
  · have hpos : 0 < q.length := List.length_pos_of_ne_nil hway.ne_nil
    rw [h.mem_below_iff (by rintro l ⟨⟩; rfl) hway hnear, hwithin]
    constructor
    · rintro ⟨p', hp', hsuffix, hlt, hle⟩
      cases hway'.unique hp'
      refine ⟨⟨hsuffix, ?_⟩, by omega, by omega⟩
      rintro rfl
      rw [hway.unique hway'] at hlt
      exact Nat.lt_irrefl _ hlt
    · rintro ⟨⟨hsuffix, -⟩, hlt, hle⟩
      exact ⟨p, hway', hsuffix, by omega, by omega⟩

/-- The branch 5 of an `if` lies two levels below the root scope 2: in the block 4, which lies there. -/
theorem descendants_agree_wayBack : ∃ g all near, wayBack = .ok g ∧ Reachable g ∧ Consistent g ∧
    g.descendants ⟨2⟩ none true = .ok all ∧ all.count ⟨5⟩ = 1 ∧ g.descendants ⟨2⟩ (some 2) false = .ok near ∧
    ⟨5⟩ ∈ near := by
  obtain ⟨u, h⟩ := exists_of_isOk (x := do
    let g ← wayBack
    let _ ← g.scope ⟨2⟩
    let _ ← g.scope ⟨5⟩
    let around ← g.isAncestorOrSelf ⟨2⟩ ⟨5⟩
    let top ← g.depth ⟨2⟩
    let deep ← g.depth ⟨5⟩
    if ¬(around = true ∧ top = 0 ∧ deep = 2) then throw .endless) (by decide +kernel)
  simp only [bind_eq_ok] at h
  obtain ⟨g, hg, sc, hsc, sc', hsc', around, haround, top, htop, deep, hdeep, h⟩ := h
  split at h
  next => cases h
  next heq =>
    obtain ⟨rfl, rfl, rfl⟩ := not_not.1 heq
    obtain ⟨hr, hc⟩ := consistent_wayBack hg
    obtain ⟨all, near, around, ds, dt, hall, hnear, haround', hds, hdt, hmem, hcount, hlevels⟩ :=
      hr.descendants_agree hc ⟨sc, hsc⟩ ⟨sc', hsc'⟩ 2
    cases haround.symm.trans haround'
    cases htop.symm.trans hds
    cases hdeep.symm.trans hdt
    exact ⟨g, all, near, hg, hr, hc, hall, hcount (hmem.2 rfl), hnear,
      hlevels.2 ⟨⟨rfl, by decide⟩, by decide, by decide⟩⟩

end Graph

end FlowGraph
