import Mathlib.Data.List.Forall2

/-!
# Results that are there

What a read or an edit that gives a result has gone through: one equation for each way computations are put
together.
-/

namespace FlowGraph

section

variable {ε α β σ : Type}

@[simp]
theorem pure_eq_ok {a b : α} : (pure a : Except ε α) = .ok b ↔ a = b := by
  simp [pure, Except.pure]

@[simp]
theorem bind_eq_ok {x : Except ε α} {f : α → Except ε β} {b : β} :
    x >>= f = .ok b ↔ ∃ a, x = .ok a ∧ f a = .ok b := by
  cases x with
  | error e => simp [bind, Except.bind]
  | ok a => simp [bind, Except.bind]

@[simp]
theorem map_eq_ok {x : Except ε α} {f : α → β} {b : β} : f <$> x = .ok b ↔ ∃ a, x = .ok a ∧ f a = b := by
  cases x with
  | error e => simp [Functor.map, Except.map]
  | ok a => simp [Functor.map, Except.map]

theorem ok_bind (a : α) (f : α → Except ε β) : Except.ok a >>= f = f a := rfl

theorem exists_of_isOk {x : Except ε α} (h : x.isOk = true) : ∃ a, x = .ok a := by
  cases x with
  | error e => cases h
  | ok a => exact ⟨a, rfl⟩

theorem eq_ok_of_toOption_bind {x : Except ε α} {a : α} {b : β} (f : α → Except ε β) (hx : x = .ok a)
    (h : (x >>= f).toOption = some b) : f a = .ok b := by
  subst hx
  change (f a).toOption = some b at h
  cases hf : f a with
  | error e =>
    rw [hf] at h
    cases h
  | ok b' =>
    rw [hf] at h
    exact congrArg Except.ok (Option.some.inj h)

@[simp]
theorem elim_throw_eq_ok {o : Option α} {e : ε} {a : α} :
    o.elim (throw e) pure = (.ok a : Except ε α) ↔ o = some a := by
  cases o with
  | none => exact iff_of_false (by rintro ⟨⟩) (by rintro ⟨⟩)
  | some a' => simp

theorem ite_error_eq_ok_iff {p : Prop} [Decidable p] {e : ε} {x : Except ε α} {a : α} :
    (if p then .error e else x) = .ok a ↔ ¬p ∧ x = .ok a := by
  split
  next hp => exact iff_of_false (by rintro ⟨⟩) fun h => h.1 hp
  next hp => exact (and_iff_right hp).symm

theorem mapM_eq_ok_iff {f : α → Except ε β} {as : List α} {bs : List β} :
    as.mapM f = .ok bs ↔ List.Forall₂ (fun a b => f a = .ok b) as bs := by
  induction as generalizing bs with
  | nil =>
    rw [List.mapM_nil, pure_eq_ok, List.forall₂_nil_left_iff]
    exact eq_comm
  | cons a as ih =>
    simp only [List.mapM_cons, bind_eq_ok, pure_eq_ok, ih]
    constructor
    · rintro ⟨b, hb, bs, hbs, rfl⟩
      exact .cons hb hbs
    · intro h
      cases h with
      | cons hb hbs => exact ⟨_, hb, _, hbs, rfl⟩

theorem exists_of_mem_mapM {f : α → Except ε β} {as : List α} {bs : List β} (h : as.mapM f = .ok bs) {a : α}
    (ha : a ∈ as) : ∃ b ∈ bs, f a = .ok b := by
  rw [mapM_eq_ok_iff] at h
  induction h with
  | nil => cases ha
  | cons hb _ ih =>
    rcases List.mem_cons.1 ha with rfl | ha
    · exact ⟨_, List.mem_cons_self, hb⟩
    · obtain ⟨b, hmem, hb⟩ := ih ha
      exact ⟨b, List.mem_cons_of_mem _ hmem, hb⟩

theorem of_mem_mapM {f : α → Except ε β} {as : List α} {bs : List β} (h : as.mapM f = .ok bs) {b : β}
    (hb : b ∈ bs) : ∃ a ∈ as, f a = .ok b := by
  rw [mapM_eq_ok_iff] at h
  induction h with
  | nil => cases hb
  | cons ha _ ih =>
    rcases List.mem_cons.1 hb with rfl | hb
    · exact ⟨_, List.mem_cons_self, ha⟩
    · obtain ⟨a, hmem, ha⟩ := ih hb
      exact ⟨a, List.mem_cons_of_mem _ hmem, ha⟩

theorem exists_mapM {f : α → Except ε β} {as : List α} (h : ∀ a ∈ as, ∃ b, f a = .ok b) :
    ∃ bs, as.mapM f = .ok bs := by
  induction as with
  | nil => exact ⟨[], rfl⟩
  | cons a as ih =>
    obtain ⟨b, hb⟩ := h a List.mem_cons_self
    obtain ⟨bs, hbs⟩ := ih fun a ha => h a (List.mem_cons_of_mem _ ha)
    exact ⟨b :: bs, by rw [List.mapM_cons, hb, hbs]; rfl⟩

theorem exists_mapM_of_rel {γ δ : Type} {R : α → γ → Prop} {S : β → δ → Prop} {f : α → Except ε β} {f' : γ → Except ε δ}
    {as : List α} {cs : List γ} {ds : List δ} (h : List.Forall₂ R as cs)
    (hf : ∀ a c d, R a c → c ∈ cs → f' c = .ok d → ∃ b, f a = .ok b ∧ S b d) (hds : cs.mapM f' = .ok ds) :
    ∃ bs, as.mapM f = .ok bs ∧ List.Forall₂ S bs ds := by
  rw [mapM_eq_ok_iff] at hds
  simp only [mapM_eq_ok_iff]
  induction h generalizing ds with
  | nil =>
    cases hds
    exact ⟨[], .nil, .nil⟩
  | @cons a c as cs hac _ ih =>
    cases hds with
    | cons hd hds =>
      obtain ⟨b, hb, hbd⟩ := hf a c _ hac List.mem_cons_self hd
      obtain ⟨bs, hbs, hrest⟩ := ih (fun a c d hac hc => hf a c d hac (List.mem_cons_of_mem _ hc)) hds
      exact ⟨b :: bs, .cons hb hbs, .cons hbd hrest⟩

theorem rel_getElem? {R : α → β → Prop} {as : List α} {bs : List β} (h : List.Forall₂ R as bs) (i : Nat) :
    Option.Rel R as[i]? bs[i]? := by
  induction h generalizing i with
  | nil => exact .none
  | cons hab _ ih =>
    cases i with
    | zero => exact .some hab
    | succ i => exact ih i

theorem rel_bind {γ δ : Type} {R : α → β → Prop} {S : γ → δ → Prop} {x : Option α} {y : Option β} {f : α → Option γ}
    {g : β → Option δ} (h : Option.Rel R x y) (hnext : ∀ a b, R a b → Option.Rel S (f a) (g b)) :
    Option.Rel S (x.bind f) (y.bind g) := by
  cases h with
  | some hab => exact hnext _ _ hab
  | none => exact .none

theorem rel_map {γ δ : Type} {R : α → β → Prop} {S : γ → δ → Prop} {x : Option α} {y : Option β} {f : α → γ} {g : β → δ}
    (h : Option.Rel R x y) (hnext : ∀ a b, R a b → S (f a) (g b)) : Option.Rel S (x.map f) (y.map g) := by
  cases h with
  | some hab => exact .some (hnext _ _ hab)
  | none => exact .none

theorem exists_findM? {p : α → Except ε Bool} {as : List α} (h : ∀ a ∈ as, ∃ b, p a = .ok b) :
    ∃ found, as.findM? p = .ok found := by
  induction as with
  | nil => exact ⟨none, rfl⟩
  | cons a as ih =>
    obtain ⟨b, hb⟩ := h a List.mem_cons_self
    rw [List.findM?, hb]
    cases b with
    | true => exact ⟨some a, rfl⟩
    | false => exact ih fun a ha => h a (List.mem_cons_of_mem _ ha)

theorem of_mem_filterAuxM {p : α → Except ε Bool} {as acc bs : List α} (h : as.filterAuxM p acc = .ok bs) {b : α}
    (hb : b ∈ bs) : b ∈ acc ∨ b ∈ as ∧ p b = .ok true := by
  induction as generalizing acc with
  | nil =>
    obtain rfl : acc = bs := pure_eq_ok.1 h
    exact .inl hb
  | cons a as ih =>
    simp only [List.filterAuxM, bind_eq_ok] at h
    obtain ⟨keep, hkeep, h⟩ := h
    rcases ih h with hacc | ⟨has, hp⟩
    · cases keep with
      | false => exact .inl hacc
      | true =>
        rcases List.mem_cons.1 hacc with rfl | hacc
        · exact .inr ⟨List.mem_cons_self, hkeep⟩
        · exact .inl hacc
    · exact .inr ⟨List.mem_cons_of_mem _ has, hp⟩

theorem of_mem_filterM {p : α → Except ε Bool} {as bs : List α} (h : as.filterM p = .ok bs) {b : α}
    (hb : b ∈ bs) : b ∈ as ∧ p b = .ok true := by
  simp only [List.filterM, bind_eq_ok, pure_eq_ok] at h
  obtain ⟨kept, hkept, rfl⟩ := h
  rcases of_mem_filterAuxM hkept (List.mem_reverse.1 hb) with hacc | h
  · cases hacc
  · exact h

theorem mem_filterAuxM {p : α → Except ε Bool} {as acc bs : List α} (h : as.filterAuxM p acc = .ok bs) {b : α}
    (hb : b ∈ acc ∨ b ∈ as ∧ p b = .ok true) : b ∈ bs := by
  induction as generalizing acc with
  | nil =>
    obtain rfl : acc = bs := pure_eq_ok.1 h
    exact hb.resolve_right fun hmem => nomatch hmem.1
  | cons a as ih =>
    simp only [List.filterAuxM, bind_eq_ok] at h
    obtain ⟨keep, hkeep, h⟩ := h
    refine ih h ?_
    rcases hb with hacc | ⟨has, hp⟩
    · cases keep with
      | false => exact .inl hacc
      | true => exact .inl (List.mem_cons_of_mem _ hacc)
    · rcases List.mem_cons.1 has with rfl | has
      · obtain rfl : true = keep := Except.ok.inj (hp.symm.trans hkeep)
        exact .inl List.mem_cons_self
      · exact .inr ⟨has, hp⟩

theorem mem_filterM_iff {p : α → Except ε Bool} {as bs : List α} (h : as.filterM p = .ok bs) {b : α} :
    b ∈ bs ↔ b ∈ as ∧ p b = .ok true := by
  refine ⟨of_mem_filterM h, fun hb => ?_⟩
  simp only [List.filterM, bind_eq_ok, pure_eq_ok] at h
  obtain ⟨kept, hkept, rfl⟩ := h
  exact List.mem_reverse.2 (mem_filterAuxM hkept (.inr hb))

theorem mem_filterMapM_loop {f : α → Except ε (Option β)} {as : List α} {acc bs : List β}
    (h : List.filterMapM.loop f as acc = .ok bs) {b : β} (hb : b ∈ acc ∨ ∃ a ∈ as, f a = .ok (some b)) : b ∈ bs := by
  induction as generalizing acc with
  | nil =>
    obtain rfl : acc.reverse = bs := pure_eq_ok.1 h
    rw [List.mem_reverse]
    exact hb.resolve_right fun ⟨_, hmem, _⟩ => nomatch hmem
  | cons a as ih =>
    simp only [List.filterMapM.loop, bind_eq_ok] at h
    obtain ⟨found, hfound, h⟩ := h
    cases found with
    | none =>
      refine ih h (hb.imp_right fun ⟨a', ha', hf⟩ => ⟨a', ?_, hf⟩)
      refine (List.mem_cons.1 ha').resolve_left ?_
      rintro rfl
      cases hfound.symm.trans hf
    | some c =>
      refine ih h ?_
      rcases hb with hacc | ⟨a', ha', hf⟩
      · exact .inl (List.mem_cons_of_mem _ hacc)
      · rcases List.mem_cons.1 ha' with rfl | ha'
        · cases hfound.symm.trans hf
          exact .inl List.mem_cons_self
        · exact .inr ⟨a', ha', hf⟩

theorem mem_filterMapM {f : α → Except ε (Option β)} {as : List α} {bs : List β} (h : as.filterMapM f = .ok bs) {a : α}
    {b : β} (ha : a ∈ as) (hf : f a = .ok (some b)) : b ∈ bs :=
  mem_filterMapM_loop h (.inr ⟨a, ha, hf⟩)

theorem of_findM?_eq_some {p : α → Except ε Bool} {as : List α} {a : α} (h : as.findM? p = .ok (some a)) :
    a ∈ as ∧ p a = .ok true := by
  induction as with
  | nil => cases h
  | cons a' as ih =>
    simp only [List.findM?, bind_eq_ok] at h
    obtain ⟨found, hfound, h⟩ := h
    cases found with
    | true =>
      cases h
      exact ⟨List.mem_cons_self, hfound⟩
    | false =>
      obtain ⟨hmem, hp⟩ := ih h
      exact ⟨List.mem_cons_of_mem _ hmem, hp⟩

theorem of_findM?_eq_none {p : α → Except ε Bool} {as : List α} (h : as.findM? p = .ok none) {a : α}
    (ha : a ∈ as) : p a = .ok false := by
  induction as with
  | nil => cases ha
  | cons a' as ih =>
    simp only [List.findM?, bind_eq_ok] at h
    obtain ⟨found, hfound, h⟩ := h
    cases found with
    | true => cases h
    | false =>
      rcases List.mem_cons.1 ha with rfl | ha
      · exact hfound
      · exact ih h ha

theorem foldlM_induction {P : σ → Prop} {f : σ → α → Except ε σ} {as : List α} {s t : σ}
    (h : as.foldlM f s = .ok t) (start : P s)
    (step : ∀ s, ∀ a ∈ as, ∀ t, P s → f s a = .ok t → P t) : P t := by
  induction as generalizing s with
  | nil =>
    obtain rfl : s = t := by simpa using h
    exact start
  | cons a as ih =>
    simp only [List.foldlM_cons, bind_eq_ok] at h
    obtain ⟨s', hs', h⟩ := h
    refine ih h (step s a List.mem_cons_self s' start hs') ?_
    intro s a ha
    exact step s a (List.mem_cons_of_mem _ ha)

/-- What a step brings about for its element, and later steps keep, holds of all elements in the end. -/
theorem foldlM_visits {P : σ → Prop} {Q : α → σ → Prop} {f : σ → α → Except ε σ} {as : List α} {s t : σ}
    (h : as.foldlM f s = .ok t) (start : P s)
    (step : ∀ s, ∀ a ∈ as, ∀ t, P s → f s a = .ok t → P t ∧ Q a t ∧ ∀ b, Q b s → Q b t) :
    P t ∧ ∀ a ∈ as, Q a t := by
  -- what has been visited so far is visited for good
  suffices ∀ done : List α, (∀ a ∈ done, Q a s) → P t ∧ ∀ a ∈ done ++ as, Q a t by simpa using this []
  induction as generalizing s with
  | nil =>
    obtain rfl : s = t := by simpa using h
    intro done hdone
    rw [List.append_nil]
    exact ⟨start, hdone⟩
  | cons a as ih =>
    simp only [List.foldlM_cons, bind_eq_ok] at h
    obtain ⟨s', hs', h⟩ := h
    obtain ⟨hP, hQ, hkeep⟩ := step s a List.mem_cons_self s' start hs'
    intro done hdone
    rw [List.append_cons]
    refine ih h hP (fun s b hb => step s b (List.mem_cons_of_mem _ hb)) (done ++ [a]) fun b hb => ?_
    rcases List.mem_append.1 hb with hb | hb
    · exact hkeep b (hdone b hb)
    · rw [List.mem_singleton.1 hb]
      exact hQ

def Entails (x y : Except ε α) : Prop := ∀ a, x = .ok a → y = .ok a

namespace Entails

theorem refl (x : Except ε α) : Entails x x := fun _ => id

theorem bind {x y : Except ε α} {f f' : α → Except ε β} (h : Entails x y) (hf : ∀ a, Entails (f a) (f' a)) :
    Entails (x >>= f) (y >>= f') := by
  intro b hb
  obtain ⟨a, ha, hb⟩ := bind_eq_ok.1 hb
  exact bind_eq_ok.2 ⟨a, h a ha, hf a b hb⟩

theorem mapM {f f' : α → Except ε β} (h : ∀ a, Entails (f a) (f' a)) (as : List α) :
    Entails (as.mapM f) (as.mapM f') := by
  intro bs hbs
  rw [mapM_eq_ok_iff] at hbs ⊢
  exact hbs.imp fun a b hb => h a b hb

theorem findM? {p p' : α → Except ε Bool} (h : ∀ a, Entails (p a) (p' a)) (as : List α) :
    Entails (as.findM? p) (as.findM? p') := by
  induction as with
  | nil => exact .refl _
  | cons a as ih =>
    refine .bind (h a) fun holds => ?_
    cases holds with
    | true => exact .refl _
    | false => exact ih

end Entails

end

end FlowGraph
