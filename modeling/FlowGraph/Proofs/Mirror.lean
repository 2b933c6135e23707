import FlowGraph.Proofs.Correctness

/-!
# Links and entries

In a reachable graph the registry of links and the entries of slots say the same, and neither refers to a node
that is gone.
-/

namespace FlowGraph.Graph

structure RegistryMatches (g : Graph) : Prop where
  mem_links_iff {t h : SlotRef} {k : SlotKind} : ⟨t, h, k⟩ ∈ g.links k ↔
    ∃ out inp, g.slot? t = .ok (some out) ∧ g.slot? h = .ok (some inp) ∧ out.kind = k ∧ out.isPrimary = true ∧
      h ∈ out.adjacent ∧ t ∈ inp.adjacent
  joined {l : Link} {k : SlotKind} : l ∈ g.links k → l.kind = k ∧ l.tail.node ≠ l.head.node ∧
    g.contains l.tail.node = true ∧ g.contains l.head.node = true ∧
    ∃ out inp, g.slot? l.tail = .ok (some out) ∧ g.slot? l.head = .ok (some inp) ∧ out.kind = k ∧ inp.kind = k ∧
      out.isPrimary = true ∧ inp.isPrimary = false ∧ out.adjacent.count l.head = 1 ∧ inp.adjacent.count l.tail = 1
  registered {r r' : SlotRef} {slot : Slot} : g.slot? r = .ok (some slot) → r' ∈ slot.adjacent →
    slot.linkTo r r' ∈ g.links slot.kind
  apart : (g.valueLinks ++ g.flowLinks).Pairwise fun l l' => l.joins l'.tail l'.head = false
  room {r : SlotRef} {slot : Slot} : g.slot? r = .ok (some slot) → slot.adjacent.length ≤ slot.capacity ∧
    (slot.isFull = true ↔ slot.adjacent.length = slot.capacity)
  live {r r' : SlotRef} {slot : Slot} : g.slot? r = .ok (some slot) → r' ∈ slot.adjacent →
    g.contains r.node = true ∧ g.contains r'.node = true

variable {g : Graph}

theorem contains_of_slotAt? {r : SlotRef} {slot : Slot} (h : g.slotAt? r = some slot) :
    g.contains r.node = true := by
  obtain ⟨n, hn, -⟩ := Option.bind_eq_some_iff.1 h
  rw [contains_iff, hn]
  rfl

namespace LinksMatch

theorem eq_of_joins (hw : LinksMatch g) {k k' : SlotKind} {l l' : Link} (hl : l ∈ g.links k) (hl' : l' ∈ g.links k')
    (hjoins : l.joins l'.tail l'.head = true) : l = l' := by
  simp only [Link.joins, Bool.or_eq_true, Bool.and_eq_true, beq_iff_eq] at hjoins
  rcases hjoins with ⟨hsame, hsame'⟩ | ⟨hcross, -⟩
  · exact hw.eq_of_ends hl hl' hsame hsame'
  · exact (hw.tail_ne_head hl hl' hcross).elim

theorem pairwise_apart (hw : LinksMatch g) :
    (g.valueLinks ++ g.flowLinks).Pairwise fun l l' => l.joins l'.tail l'.head = false := by
  have hkind (k k' : SlotKind) {l l' : Link} (hl : l ∈ g.links k) (hl' : l' ∈ g.links k') (hne : l ≠ l') :
      l.joins l'.tail l'.head = false := by
    rw [← Bool.not_eq_true]
    exact fun hjoins => hne (hw.eq_of_joins hl hl' hjoins)
  refine List.pairwise_append.2 ⟨?_, ?_, ?_⟩
  · exact (hw.links_nodup .value).imp_of_mem fun hl hl' hne => hkind .value .value hl hl' hne
  · exact (hw.links_nodup .flow).imp_of_mem fun hl hl' hne => hkind .flow .flow hl hl' hne
  · intro l hl l' hl'
    refine hkind .value .flow hl hl' ?_
    rintro rfl
    cases (hw.joined (k := .value) hl).1.symm.trans (hw.joined (k := .flow) hl').1

theorem registryMatches (hw : LinksMatch g) : RegistryMatches g := by
  refine ⟨?_, ?_, ?_, hw.pairwise_apart, ?_, ?_⟩
  · intro t h k
    constructor
    · intro hl
      obtain ⟨-, -, out, inp, hout, hinp, hkind, -, hprimary, -, hhead, htail⟩ := hw.joined hl
      exact ⟨out, inp, slot?_eq_some_iff.2 hout, slot?_eq_some_iff.2 hinp, hkind, hprimary, hhead, htail⟩
    · rintro ⟨out, inp, hout, -, rfl, hprimary, hhead, -⟩
      have hl := hw.registered (slot?_eq_some_iff.1 hout) hhead
      rwa [Slot.linkTo, if_pos hprimary] at hl
  · intro l k hl
    obtain ⟨hkind, hne, out, inp, hout, hinp, hout', hinp', hprimary, hsecondary, hhead, htail⟩ := hw.joined hl
    refine ⟨hkind, hne, contains_of_slotAt? hout, contains_of_slotAt? hinp, out, inp, slot?_eq_some_iff.2 hout,
      slot?_eq_some_iff.2 hinp, hout', hinp', hprimary, hsecondary, ?_, ?_⟩
    · exact List.count_eq_one_of_mem (hw.adjacent_nodup hout) hhead
    · exact List.count_eq_one_of_mem (hw.adjacent_nodup hinp) htail
  · intro r r' slot hslot
    exact hw.registered (slot?_eq_some_iff.1 hslot)
  · intro r slot hslot
    obtain ⟨hle, hfull⟩ := hw.roomKnown (slot?_eq_some_iff.1 hslot)
    refine ⟨hle, ?_⟩
    rw [Slot.isFull, hfull, Bool.not_eq_true', decide_eq_false_iff_not]
    omega
  · intro r r' slot hslot hr'
    have hslot := slot?_eq_some_iff.1 hslot
    refine ⟨contains_of_slotAt? hslot, ?_⟩
    obtain ⟨-, -, out, inp, hout, hinp, -⟩ := hw.joined (hw.registered hslot hr')
    unfold Slot.linkTo at hout hinp
    split at hout
    next hprimary =>
      rw [if_pos hprimary] at hinp
      exact contains_of_slotAt? hinp
    next => exact contains_of_slotAt? hout

end LinksMatch

theorem registryMatches_of_reachable (h : Reachable g) : RegistryMatches g := h.wellFormed.linksMatch.registryMatches

theorem registryMatches_idleLoop : ∃ g, idleLoop = .ok g ∧ Reachable g ∧ RegistryMatches g := by
  obtain ⟨g, c, hg, -⟩ := idleLoop_compiles
  exact ⟨g, hg, idleLoop_reachable hg, registryMatches_of_reachable (idleLoop_reachable hg)⟩

end FlowGraph.Graph
