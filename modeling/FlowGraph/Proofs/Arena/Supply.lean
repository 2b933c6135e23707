import FlowGraph.Proofs.Arena.Items

/-!
# Arenas on one supply

Any number of arenas take their identifiers from one supply. An identifier names, for good, the item it was issued
for: in the arena that issued it while the item lives, and in no arena before or after. What has happened is kept as
a log of births and deaths, and every arena is determined by it.
-/

namespace FlowGraph

variable {κ : Type} {Item : κ → Type}

/-- Arenas, each at a place of its own, and the supply that they share. -/
structure Arenas (Item : κ → Type) where
  arena : Nat → Arena Item := fun _ => {}
  ids : IdSupply := {}

namespace Arenas

/-- What `build` does to other arenas counts as done after the creation, whose identifier is taken first. -/
inductive Act (Item : κ → Type)
  | create (place : Nat) (k : κ) (build : Handle k → Item k)
  /-- A creation that gets no item from its builder. -/
  | abandon
  | destroy (place : Nat) (k : κ) (h : Handle k)
  | destroyAll (place : Nat) (k : κ) (hs : List (Handle k))

inductive Event (Item : κ → Type)
  | born (place id : Nat) (e : Entry Item)
  | wasted (id : Nat)
  | died (place id : Nat)
  | exhausted
  | refused (e : Mistyped κ)

def Event.issued? : Event Item → Option Nat
  | born _ id _ => some id
  | wasted id => some id
  | _ => none

def issued (log : List (Event Item)) : List Nat := log.filterMap Event.issued?

def put (w : Arenas Item) (place : Nat) (a : Arena Item) : Arenas Item :=
  { w with arena := fun j => if j = place then a else w.arena j }

variable [DecidableEq κ] {k : κ}

def destroyEach (w : Arenas Item) (place : Nat) : List (Handle k) → List (Event Item) × Arenas Item
  | [] => ([], w)
  | h :: rest =>
    match (w.arena place).destroy h with
    | .error e => ([.refused e], w)
    | .ok (none, a) => destroyEach (w.put place a) place rest
    | .ok (some _, a) =>
      let later := destroyEach (w.put place a) place rest
      (.died place h.raw :: later.1, later.2)

def perform (w : Arenas Item) : Act Item → List (Event Item) × Arenas Item
  | .create place k build =>
    match (w.arena place).create w.ids k build with
    | none => ([.exhausted], w)
    | some (h, a, ids) => ([.born place h.raw ⟨k, build h⟩], { w.put place a with ids })
  | .abandon =>
    match w.ids.issue with
    | none => ([.exhausted], w)
    | some (id, ids) => ([.wasted id], { w with ids })
  | .destroy place _ h => destroyEach w place [h]
  | .destroyAll place _ hs => destroyEach w place hs

/-- What happens, one act after the other, and the arenas afterwards. -/
def run (w : Arenas Item) : List (Act Item) → List (Event Item) × Arenas Item
  | [] => ([], w)
  | c :: rest =>
    let now := perform w c
    let later := run now.2 rest
    (now.1 ++ later.1, later.2)

end Arenas

namespace Arena

variable [DecidableEq κ] {a : Arena Item} {id : Nat} {k k' : κ} {x : Item k}

/-- The handle names nothing in the arena, whatever its kind is. -/
structure Unresolved (a : Arena Item) (h : Handle k) : Prop where
  get : a.get h = .ok none
  tryGet : a.tryGet h = .error (.notFound h.raw)
  contains : a.contains h = false
  record : a.record h = .ok none

structure Resolves (a : Arena Item) (h : Handle k) (x : Item k) : Prop where
  get : a.get h = .ok (some x)
  tryGet : a.tryGet h = .ok x
  contains : a.contains h = true
  record : ∃ r, a.record h = .ok (some r) ∧ entryAt a.stores r = some (h.raw, ⟨k, x⟩)
  destroy : a.destroy h = .ok (some x, a.erase h.raw)

/-- The handle names an item, but of the kind `k'`. -/
structure WrongKind (a : Arena Item) (h : Handle k) (k' : κ) : Prop where
  get : a.get h = .error ⟨h.raw, k, k'⟩
  tryGet : a.tryGet h = .error (.wrongType h.raw k k')
  contains : a.contains h = false
  record : a.record h = .error ⟨h.raw, k, k'⟩

theorem of_destroy {a a' : Arena Item} {h : Handle k} {x : Option (Item k)} (hdestroy : a.destroy h = .ok (x, a')) :
    (x = none ∧ a' = a) ∨ ∃ y, x = some y ∧ a.lookup? h.raw = some ⟨k, y⟩ ∧ a' = a.erase h.raw := by
  rw [destroy] at hdestroy
  cases hget : a.get h with
  | error e =>
    rw [hget] at hdestroy
    cases hdestroy
  | ok y =>
    rw [hget] at hdestroy
    cases y with
    | none =>
      cases hdestroy
      exact .inl ⟨rfl, rfl⟩
    | some y =>
      cases hdestroy
      exact .inr ⟨y, rfl, item?_eq_some_iff.1 (get_eq_some_iff.1 hget), rfl⟩

theorem destroyAll_cons {a b : Arena Item} {h : Handle k} {x : Option (Item k)} (hdestroy : a.destroy h = .ok (x, b))
    (rest : List (Handle k)) :
    a.destroyAll (h :: rest) = (b.destroyAll rest).map fun r => (if x.isSome then r.1 + 1 else r.1, r.2) := by
  simp only [destroyAll, hdestroy, bind, Except.bind]
  cases b.destroyAll rest <;> rfl

theorem unresolved_of_lookup? (h : a.lookup? id = none) : a.Unresolved (⟨id⟩ : Handle k) := by
  have hget : a.get (⟨id⟩ : Handle k) = .ok none := by simp only [get, h]
  have htry : a.tryGet (⟨id⟩ : Handle k) = .error (.notFound id) := by simp only [tryGet, h]
  exact ⟨hget, htry, by rw [contains, htry]; rfl, by rw [record, hget]; rfl⟩

theorem resolves_of_lookup? (h : a.lookup? id = some ⟨k, x⟩) : a.Resolves (⟨id⟩ : Handle k) x := by
  have hget : a.get (⟨id⟩ : Handle k) = .ok (some x) := by simp [get, h]
  have htry : a.tryGet (⟨id⟩ : Handle k) = .ok x := by simp [tryGet, h]
  obtain ⟨r, hr⟩ := lookup?_eq_some_iff.1 h
  refine ⟨hget, htry, by rw [contains, htry]; rfl, ⟨r, ?_, hr⟩, by rw [destroy, hget]; rfl⟩
  rw [record, hget]
  exact congrArg Except.ok (records_of_entryAt hr)

theorem wrongKind_of_lookup? (h : a.lookup? id = some ⟨k, x⟩) (hne : k ≠ k') : a.WrongKind (⟨id⟩ : Handle k') k := by
  have hget : a.get (⟨id⟩ : Handle k') = .error ⟨id, k', k⟩ := by simp only [get, h, dif_neg hne]
  have htry : a.tryGet (⟨id⟩ : Handle k') = .error (.wrongType id k' k) := by simp only [tryGet, h, dif_neg hne]
  exact ⟨hget, htry, by rw [contains, htry]; rfl, by rw [record, hget]; rfl⟩

end Arena

namespace Arenas

structure TracksLog (log : List (Event Item)) (w : Arenas Item) : Prop where
  known (id : Nat) : id ∈ issued log → 0 < id ∧ id < w.ids.next
  started : 0 < w.ids.next
  bounded : w.ids.next ≤ IdSupply.limit
  increasing : (issued log).Pairwise (· < ·)
  unique (i j id : Nat) (e e' : Entry Item) : .born i id e ∈ log → .born j id e' ∈ log → i = j ∧ e = e'
  born (i id : Nat) : .died i id ∈ log → ∃ e, .born i id e ∈ log
  live (i id : Nat) (e : Entry Item) : (w.arena i).lookup? id = some e ↔ .born i id e ∈ log ∧ .died i id ∉ log

section

variable {w : Arenas Item} {log : List (Event Item)} {i place id : Nat} {e : Entry Item}

theorem tracksLog_nil : TracksLog [] ({} : Arenas Item) where
  known _ h := absurd h List.not_mem_nil
  started := Nat.one_pos
  bounded := show 1 ≤ IdSupply.limit by decide
  increasing := .nil
  unique _ _ _ _ _ h := absurd h List.not_mem_nil
  born _ _ h := absurd h List.not_mem_nil
  live i id e := by simp [Arena.lookup?]

theorem mem_issued_of_born (h : .born i id e ∈ log) : id ∈ issued log :=
  List.mem_filterMap.2 ⟨_, h, rfl⟩

theorem issued_append (log events : List (Event Item)) : issued (log ++ events) = issued log ++ issued events :=
  List.filterMap_append

theorem issued_append_died (log : List (Event Item)) (place id : Nat) :
    issued (log ++ [.died place id]) = issued log := by
  rw [issued_append]
  exact List.append_nil _

theorem TracksLog.lt_of_born (h : TracksLog log w) (hborn : .born i id e ∈ log) : id < w.ids.next :=
  (h.known id (mem_issued_of_born hborn)).2

theorem TracksLog.not_mem_records (h : TracksLog log w) (place : Nat) : w.ids.next ∉ (w.arena place).records := by
  rw [← Arena.lookup?_eq_none_iff, Option.eq_none_iff_forall_ne_some]
  intro e he
  exact absurd (h.lt_of_born ((h.live _ _ _).1 he).1) (Nat.lt_irrefl _)

theorem arena_put (w : Arenas Item) (place : Nat) (a : Arena Item) (i : Nat) :
    (w.put place a).arena i = if i = place then a else w.arena i := rfl

theorem arena_put_self (w : Arenas Item) (place : Nat) (a : Arena Item) : (w.put place a).arena place = a := if_pos rfl

theorem lookup?_put (w : Arenas Item) (place : Nat) (a : Arena Item) (i id : Nat) :
    ((w.put place a).arena i).lookup? id = if i = place then a.lookup? id else (w.arena i).lookup? id := by
  rw [arena_put]
  split <;> rfl

theorem put_arena (w : Arenas Item) (place : Nat) : w.put place (w.arena place) = w := by
  cases w
  simp only [put, Arenas.mk.injEq, and_true]
  funext i
  split
  next h => rw [h]
  next => rfl

theorem put_put (w : Arenas Item) (place : Nat) (a b : Arena Item) : (w.put place a).put place b = w.put place b := by
  simp only [put, Arenas.mk.injEq, and_true]
  funext i
  split <;> rfl

theorem TracksLog.append_idle (h : TracksLog log w) {event : Event Item} (hissued : event.issued? = none)
    (hdied : ∀ i id, event ≠ .died i id) : TracksLog (log ++ [event]) w := by
  have hnone : issued (log ++ [event]) = issued log := by simp [issued, hissued]
  have hborn (i id : Nat) (e : Entry Item) : .born i id e ∈ log ++ [event] ↔ .born i id e ∈ log := by
    rw [List.mem_append, List.mem_singleton]
    refine or_iff_left fun heq => ?_
    rw [← heq] at hissued
    cases hissued
  have hdeath (i id : Nat) : .died i id ∈ log ++ [event] ↔ .died i id ∈ log := by
    rw [List.mem_append, List.mem_singleton]
    exact or_iff_left fun heq => hdied i id heq.symm
  refine ⟨hnone ▸ h.known, h.started, h.bounded, hnone ▸ h.increasing, ?_, ?_, ?_⟩
  · simp only [hborn]; exact h.unique
  · simp only [hborn, hdeath]; exact h.born
  · simp only [hborn, hdeath]; exact h.live

theorem TracksLog.known_append (h : TracksLog log w) {event : Event Item} (hissued : event.issued? = some w.ids.next)
    (id : Nat) (hid : id ∈ issued (log ++ [event])) : 0 < id ∧ id < w.ids.next + 1 := by
  rw [issued_append, List.mem_append] at hid
  rcases hid with hid | hid
  · obtain ⟨hpos, hlt⟩ := h.known id hid
    exact ⟨hpos, Nat.lt_succ_of_lt hlt⟩
  · obtain rfl : id = w.ids.next := by simpa [issued, hissued] using hid
    exact ⟨h.started, Nat.lt_succ_self _⟩

theorem TracksLog.increasing_append (h : TracksLog log w) {event : Event Item}
    (hissued : event.issued? = some w.ids.next) :
    (issued (log ++ [event])).Pairwise (· < ·) := by
  rw [issued_append, List.pairwise_append]
  refine ⟨h.increasing, by simp [issued, hissued], fun id hid new hnew => ?_⟩
  obtain rfl : new = w.ids.next := by simpa [issued, hissued] using hnew
  exact (h.known id hid).2

theorem TracksLog.waste (h : TracksLog log w) (hlt : w.ids.next < IdSupply.limit) :
    TracksLog (log ++ [.wasted w.ids.next]) { w with ids := ⟨w.ids.next + 1⟩ } where
  known := h.known_append rfl
  started := Nat.succ_pos _
  bounded := hlt
  increasing := h.increasing_append rfl
  unique i j id e e' hi hj := by
    simp only [List.mem_append, List.mem_singleton, reduceCtorEq, or_false] at hi hj
    exact h.unique i j id e e' hi hj
  born i id hid := by
    simp only [List.mem_append, List.mem_singleton, reduceCtorEq, or_false] at hid ⊢
    exact h.born i id hid
  live i id e := by
    simp only [List.mem_append, List.mem_singleton, reduceCtorEq, or_false]
    exact h.live i id e

theorem TracksLog.bury (h : TracksLog log w) (hlive : (w.arena place).lookup? id = some e) :
    TracksLog (log ++ [.died place id]) (w.put place ((w.arena place).erase id)) where
  known := issued_append_died log place id ▸ h.known
  started := h.started
  bounded := h.bounded
  increasing := issued_append_died log place id ▸ h.increasing
  unique i j id e e' hi hj := by
    simp only [List.mem_append, List.mem_singleton, reduceCtorEq, or_false] at hi hj
    exact h.unique i j id e e' hi hj
  born i id' hid := by
    simp only [List.mem_append, List.mem_singleton, reduceCtorEq, or_false, Event.died.injEq] at hid ⊢
    rcases hid with hid | ⟨rfl, rfl⟩
    · exact h.born i id' hid
    · exact ⟨e, ((h.live _ _ _).1 hlive).1⟩
  live i id' e' := by
    simp only [List.mem_append, List.mem_singleton, reduceCtorEq, or_false, Event.died.injEq]
    rw [lookup?_put]
    by_cases hi : i = place
    · subst hi
      rw [if_pos rfl, Arena.lookup?_erase]
      by_cases hid : id' = id
      · simp [hid]
      · simp [hid, h.live]
    · simp [hi, h.live]

variable [DecidableEq κ]

theorem TracksLog.bear (h : TracksLog log w) (hlt : w.ids.next < IdSupply.limit) {k : κ} (x : Item k) :
    TracksLog (log ++ [.born place w.ids.next ⟨k, x⟩])
      { w.put place ((w.arena place).insert w.ids.next k x (h.not_mem_records place)) with
        ids := ⟨w.ids.next + 1⟩ } where
  known := h.known_append rfl
  started := Nat.succ_pos _
  bounded := hlt
  increasing := h.increasing_append rfl
  unique i j id e e' hi hj := by
    simp only [List.mem_append, List.mem_singleton, Event.born.injEq] at hi hj
    rcases hi with hi | ⟨rfl, rfl, rfl⟩
    · rcases hj with hj | ⟨rfl, rfl, rfl⟩
      · exact h.unique i j id e e' hi hj
      · exact absurd (h.lt_of_born hi) (Nat.lt_irrefl _)
    · rcases hj with hj | ⟨rfl, -, rfl⟩
      · exact absurd (h.lt_of_born hj) (Nat.lt_irrefl _)
      · exact ⟨rfl, rfl⟩
  born i id hid := by
    simp only [List.mem_append, List.mem_singleton, reduceCtorEq, or_false] at hid
    obtain ⟨e, he⟩ := h.born i id hid
    exact ⟨e, List.mem_append_left _ he⟩
  live i id e := by
    have hyoung : .died i w.ids.next ∉ log := fun hdied => by
      obtain ⟨e, he⟩ := h.born i _ hdied
      exact Nat.lt_irrefl _ (h.lt_of_born he)
    simp only [List.mem_append, List.mem_singleton, Event.born.injEq, reduceCtorEq, or_false]
    change ((w.put place _).arena i).lookup? id = some e ↔ _
    rw [lookup?_put]
    by_cases hi : i = place
    · subst hi
      rw [if_pos rfl, Arena.lookup?_insert]
      by_cases hid : id = w.ids.next
      · subst hid
        have hnone : .born i w.ids.next e ∉ log := fun hborn => Nat.lt_irrefl _ (h.lt_of_born hborn)
        simp [hnone, hyoung, eq_comm]
      · simp [hid, h.live]
    · simp [hi, h.live]

end

section

variable [DecidableEq κ] {w : Arenas Item} {log : List (Event Item)} {k : κ}

theorem TracksLog.destroyEach (h : TracksLog log w) (place : Nat) (hs : List (Handle k)) :
    TracksLog (log ++ (w.destroyEach place hs).1) (w.destroyEach place hs).2 := by
  induction hs generalizing w log with
  | nil =>
    rw [Arenas.destroyEach, List.append_nil]
    exact h
  | cons handle rest ih =>
    rw [Arenas.destroyEach]
    cases hdestroy : (w.arena place).destroy handle with
    | error e => exact h.append_idle rfl fun _ _ => nofun
    | ok r =>
      obtain ⟨x, a⟩ := r
      rcases Arena.of_destroy hdestroy with ⟨rfl, rfl⟩ | ⟨y, rfl, hlive, rfl⟩
      · change TracksLog (log ++ ((w.put place (w.arena place)).destroyEach place rest).1)
          ((w.put place (w.arena place)).destroyEach place rest).2
        rw [put_arena]
        exact ih h
      · have hrest := ih (h.bury hlive)
        rwa [List.append_assoc] at hrest

theorem TracksLog.perform_create (h : TracksLog log w) (hlt : w.ids.next < IdSupply.limit) (place : Nat)
    (build : Handle k → Item k) :
    w.perform (.create place k build) =
      ([.born place w.ids.next ⟨k, build ⟨w.ids.next⟩⟩],
        { w.put place ((w.arena place).insert w.ids.next k (build ⟨w.ids.next⟩) (h.not_mem_records place)) with
          ids := ⟨w.ids.next + 1⟩ }) := by
  have hissue : w.ids.issue = some (w.ids.next, ⟨w.ids.next + 1⟩) := IdSupply.issue_eq_some_iff.2 ⟨hlt, rfl, rfl⟩
  simp [Arenas.perform, Arena.create, hissue, h.not_mem_records place]

theorem perform_create_exhausted (hle : IdSupply.limit ≤ w.ids.next) (place : Nat)
    (build : Handle k → Item k) : w.perform (.create place k build) = ([.exhausted], w) := by
  have hissue : w.ids.issue = none := if_neg (Nat.not_lt.2 hle)
  simp [Arenas.perform, Arena.create, hissue]

theorem TracksLog.perform (h : TracksLog log w) (c : Act Item) :
    TracksLog (log ++ (w.perform c).1) (w.perform c).2 := by
  cases c with
  | create place k build =>
    by_cases hlt : w.ids.next < IdSupply.limit
    · rw [h.perform_create hlt]
      exact h.bear hlt _
    · rw [perform_create_exhausted (Nat.not_lt.1 hlt)]
      exact h.append_idle rfl fun _ _ => nofun
  | abandon =>
    rw [Arenas.perform]
    cases hids : w.ids.issue with
    | none => exact h.append_idle rfl fun _ _ => nofun
    | some issued =>
      obtain ⟨id, ids⟩ := issued
      obtain ⟨hlt, rfl, rfl⟩ := IdSupply.issue_eq_some_iff.1 hids
      exact h.waste hlt
  | destroy place k handle => exact h.destroyEach place [handle]
  | destroyAll place k hs => exact h.destroyEach place hs

theorem TracksLog.run (h : TracksLog log w) (acts : List (Act Item)) :
    TracksLog (log ++ (w.run acts).1) (w.run acts).2 := by
  induction acts generalizing w log with
  | nil =>
    rw [Arenas.run, List.append_nil]
    exact h
  | cons c rest ih =>
    have hrest := ih (h.perform c)
    rwa [List.append_assoc] at hrest

theorem destroyEach_cons (w : Arenas Item) {place : Nat} {handle : Handle k} {x : Option (Item k)} {a : Arena Item}
    (hdestroy : (w.arena place).destroy handle = .ok (x, a)) (rest : List (Handle k)) :
    w.destroyEach place (handle :: rest) =
      ((if x.isSome then [.died place handle.raw] else []) ++ ((w.put place a).destroyEach place rest).1,
        ((w.put place a).destroyEach place rest).2) := by
  rw [destroyEach, hdestroy]
  cases x <;> rfl

theorem destroyEach_of_ok {w : Arenas Item} {place n : Nat} {hs : List (Handle k)} {a : Arena Item}
    (h : (w.arena place).destroyAll hs = .ok (n, a)) :
    ∃ died : List Nat, w.destroyEach place hs = (died.map (.died place), w.put place a) ∧ died.length = n := by
  induction hs generalizing w n with
  | nil =>
    cases h
    exact ⟨[], by rw [put_arena]; rfl, rfl⟩
  | cons handle rest ih =>
    cases hdestroy : (w.arena place).destroy handle with
    | error e =>
      rw [Arena.destroyAll, hdestroy] at h
      cases h
    | ok r =>
      obtain ⟨x, b⟩ := r
      rw [Arena.destroyAll_cons hdestroy] at h
      cases hall : b.destroyAll rest with
      | error e => rw [hall] at h; cases h
      | ok r =>
        obtain ⟨m, c⟩ := r
        rw [hall] at h
        cases h
        obtain ⟨died, heq, rfl⟩ := ih (w := w.put place b) (by rw [arena_put_self]; exact hall)
        rw [destroyEach_cons w hdestroy, heq, put_put]
        cases x with
        | none => exact ⟨died, rfl, rfl⟩
        | some x => exact ⟨handle.raw :: died, rfl, rfl⟩

/-- A refusal of all together is a refusal of one, after the removal of those before it. -/
theorem destroyEach_of_error {w : Arenas Item} {place : Nat} {hs : List (Handle k)} {e : Mistyped κ}
    (h : (w.arena place).destroyAll hs = .error e) :
    ∃ (died : List Nat) (last : Arenas Item),
    w.destroyEach place hs = (died.map (.died place) ++ [.refused e], last) := by
  induction hs generalizing w with
  | nil => cases h
  | cons handle rest ih =>
    cases hdestroy : (w.arena place).destroy handle with
    | error e' =>
      rw [Arena.destroyAll, hdestroy] at h
      cases h
      exact ⟨[], w, by rw [destroyEach, hdestroy]; rfl⟩
    | ok r =>
      obtain ⟨x, b⟩ := r
      rw [Arena.destroyAll_cons hdestroy] at h
      cases hall : b.destroyAll rest with
      | ok r => rw [hall] at h; cases h
      | error e' =>
        rw [hall] at h
        cases h
        obtain ⟨died, last, heq⟩ := ih (w := w.put place b) (by rw [arena_put_self]; exact hall)
        rw [destroyEach_cons w hdestroy, heq]
        cases x with
        | none => exact ⟨died, last, rfl⟩
        | some x => exact ⟨handle.raw :: died, last, rfl⟩

/-- What identifiers are, whatever has happened: none is null, each is greater than all before it, and each names its
item where it was born and while it lives, and nothing after that or anywhere else. When there are none left, nothing is
created. -/
structure Distinct (log : List (Event Item)) (w : Arenas Item) : Prop where
  nonnull (id : Nat) : id ∈ issued log → id ≠ 0
  increasing : (issued log).Pairwise (· < ·)
  resolves (i id : Nat) (k : κ) (x : Item k) : .born i id ⟨k, x⟩ ∈ log → .died i id ∉ log →
    (w.arena i).Resolves (⟨id⟩ : Handle k) x
  wrongKind (i id : Nat) (k k' : κ) (x : Item k) : .born i id ⟨k, x⟩ ∈ log → .died i id ∉ log → k ≠ k' →
    (w.arena i).WrongKind (⟨id⟩ : Handle k') k
  gone (i id : Nat) (k : κ) : .died i id ∈ log → (w.arena i).Unresolved (⟨id⟩ : Handle k)
  foreign (i j id : Nat) (e : Entry Item) (k : κ) : .born i id e ∈ log → j ≠ i →
    (w.arena j).Unresolved (⟨id⟩ : Handle k)
  null (i : Nat) (k : κ) : (w.arena i).Unresolved (Handle.null : Handle k)
  created (i : Nat) (k : κ) (build : Handle k → Item k) : w.ids.next < IdSupply.limit →
    (∀ id ∈ issued log, id < w.ids.next) ∧
      (w.perform (.create i k build)).1 = [.born i w.ids.next ⟨k, build ⟨w.ids.next⟩⟩]
  exhausted (i : Nat) (k : κ) (build : Handle k → Item k) : IdSupply.limit ≤ w.ids.next →
    w.perform (.create i k build) = ([.exhausted], w)
  destroyed (i n : Nat) (k : κ) (hs : List (Handle k)) (a : Arena Item) : (w.arena i).destroyAll hs = .ok (n, a) →
    ∃ died : List Nat, w.perform (.destroyAll i k hs) = (died.map (.died i), w.put i a) ∧ died.length = n
  refused (i : Nat) (k : κ) (hs : List (Handle k)) (e : Mistyped κ) : (w.arena i).destroyAll hs = .error e →
    ∃ (died : List Nat) (last : Arenas Item),
      w.perform (.destroyAll i k hs) = (died.map (.died i) ++ [.refused e], last)
  bounded : w.ids.next ≤ IdSupply.limit

theorem TracksLog.distinct (h : TracksLog log w) : Distinct log w where
  nonnull id hid := Nat.ne_of_gt (h.known id hid).1
  increasing := h.increasing
  resolves i id k x hborn hlive := Arena.resolves_of_lookup? ((h.live i id _).2 ⟨hborn, hlive⟩)
  wrongKind i id k k' x hborn hlive hne := Arena.wrongKind_of_lookup? ((h.live i id _).2 ⟨hborn, hlive⟩) hne
  gone i id k hdied := by
    refine Arena.unresolved_of_lookup? (Option.eq_none_iff_forall_ne_some.2 fun e he => ?_)
    exact ((h.live i id e).1 he).2 hdied
  foreign i j id e k hborn hne := by
    refine Arena.unresolved_of_lookup? (Option.eq_none_iff_forall_ne_some.2 fun e' he' => ?_)
    exact hne (h.unique j i id e' e ((h.live j id e').1 he').1 hborn).1
  null i k := by
    refine Arena.unresolved_of_lookup? (Option.eq_none_iff_forall_ne_some.2 fun e he => ?_)
    exact Nat.lt_irrefl 0 (h.known 0 (mem_issued_of_born ((h.live i 0 e).1 he).1)).1
  created i k build hlt := ⟨fun id hid => (h.known id hid).2, by rw [h.perform_create hlt]⟩
  exhausted i k build hle := perform_create_exhausted hle i build
  destroyed _ _ _ _ _ h := destroyEach_of_ok h
  refused _ _ _ _ h := destroyEach_of_error h
  bounded := h.bounded

/-- Started on empty arenas and a fresh supply, whatever is created and destroyed in whichever arenas. -/
theorem run_distinct (acts : List (Act Item)) :
    Distinct (run ({} : Arenas Item) acts).1 (run {} acts).2 :=
  (List.nil_append (run ({} : Arenas Item) acts).1 ▸ tracksLog_nil.run acts).distinct

end

/-- One item dies, and one of its kind is created after it; in between, another arena gets an item. -/
def replaced : List (Act fun _ : Bool => Nat) :=
  [.create 0 true fun h => h.raw, .create 1 false fun _ => 7, .destroy 0 true ⟨1⟩, .create 0 true fun h => h.raw]

theorem run_distinct_replaced :
    (run {} replaced).1 = [.born 0 1 ⟨true, 1⟩, .born 1 2 ⟨false, 7⟩, .died 0 1, .born 0 3 ⟨true, 3⟩] ∧
      ((run {} replaced).2.arena 0).Unresolved (⟨1⟩ : Handle true) ∧
      ((run {} replaced).2.arena 0).Resolves (⟨3⟩ : Handle true) 3 ∧
      ((run {} replaced).2.arena 1).WrongKind (⟨2⟩ : Handle true) false ∧
      ((run {} replaced).2.arena 0).Unresolved (⟨2⟩ : Handle false) := by
  have hlog : (run {} replaced).1 = [.born 0 1 ⟨true, 1⟩, .born 1 2 ⟨false, 7⟩, .died 0 1, .born 0 3 ⟨true, 3⟩] := rfl
  have h := run_distinct replaced
  exact ⟨hlog, h.gone 0 1 true (by simp [hlog]), h.resolves 0 3 true 3 (by simp [hlog]) (by simp [hlog]),
    h.wrongKind 1 2 false true 7 (by simp [hlog]) (by simp [hlog]) (by decide),
    h.foreign 1 0 2 ⟨false, 7⟩ false (by simp [hlog]) (by decide)⟩

end Arenas

end FlowGraph
