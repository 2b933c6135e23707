import FlowGraph.Proofs.Rescue

/-!
# Destroying expressions

An expression that serves a node is neither a block nor the entry point, and no flow link joins it. Its destruction
takes what serves it and nothing else, and nobody moves. So all that a node is served by is there, or has gone, when its
turn comes, and a destruction that has come to an end has not met a circle.
-/

namespace FlowGraph.Graph

open Relation

variable {g g' h : Graph} {id x y : NodeId} {s : ScopeId} {n : Node} {k : Nat} {inner : List ScopeId}
  {inputs : List NodeId}

def Expression (g : Graph) (x : NodeId) : Prop := ∃ n, g.nodeAt? x = some n ∧ n.internalScope = none ∧
  n.kind ≠ .entryPoint ∧ ∀ l ∈ g.flowLinks, l.involves x = false

theorem PrivateInput.isExpression (h : PrivateInput g id x) (hl : HasLayouts g) (hw : LinksMatch g) :
    Expression g x := by
  obtain ⟨n, hn⟩ := Option.isSome_iff_exists.1 (h.live hw).2
  exact ⟨n, hn, h.plain hl hw hn⟩

namespace Expression

theorem survivorsKept (hx : Expression g x) (hl : SurvivorsKept g g') (hflow : ∀ l ∈ g'.flowLinks, l ∈ g.flowLinks)
    (hlive : (g'.nodeAt? x).isSome) : Expression g' x := by
  obtain ⟨n, hn, hplain, hkind, hfree⟩ := hx
  obtain ⟨n', hn'⟩ := Option.isSome_iff_exists.1 hlive
  obtain ⟨m, hm, hskeleton⟩ := hl.node hn'
  cases hn.symm.trans hm
  obtain ⟨hsame, -, hinternal⟩ := Node.of_skeleton hskeleton
  exact ⟨n', hn', hinternal.trans hplain, hsame ▸ hkind, fun l hl => hfree l (hflow l hl)⟩

theorem ne_root (hx : Expression g x) (hr : RootIsEntryPoint g) : x ≠ g.root := by
  rintro rfl
  obtain ⟨n, hn, -, hkind, -⟩ := hx
  obtain ⟨r, hr, hentry⟩ := hr
  cases hn.symm.trans hr
  exact hkind hentry

end Expression

theorem entries_append {e : Event} (h : g'.events = g.events ++ [e]) (he : e.isEntry = false) :
    g'.entries = g.entries := by
  rw [entries, entries, h, List.countP_append, List.countP_singleton, he]
  rfl

theorem entries_exits (h : Exits s g g') : g'.entries = g.entries := by
  induction h with
  | refl => rfl
  | tail _ hleaves ih =>
    obtain ⟨-, -, hleave⟩ := hleaves
    exact (entries_append (congrArg events (leave_eq hleave).1.frame) rfl).trans ih

theorem entries_remove (h : g.remove id inner = .ok g') : g'.entries = g.entries := by
  obtain ⟨unlinked, left, s, -, hunlinked, hexits, -, -, hremovesNode⟩ := remove_eq h
  have hdropped : unlinked.entries = g.entries := by
    refine foldlM_induction (P := fun g₁ => g₁.entries = g.entries) hunlinked rfl fun g₁ l _ g₂ hsame hdrop => ?_
    obtain ⟨-, rfl⟩ | ⟨-, hpropertyWritten⟩ := dropLink_eq hdrop
    · exact hsame
    have hevents : g₂.events = (g₁.removeLink l).events := by
      obtain rfl | ⟨i, f, rfl⟩ := hpropertyWritten
      · rfl
      · rfl
    exact (entries_append (hevents.trans (frame_removeLink l).1) rfl).trans hsame
  exact (entries_append hremovesNode.events rfl).trans ((entries_exits hexits).trans hdropped)

theorem quiet_destroyWithin (hs : WellFormed g) (hl : HasLayouts g) (hx : Expression g x)
    (h : destroyWithin true k g x = .ok g') :
    g'.entries = g.entries ∧ ∀ l ∈ g'.flowLinks, l ∈ g.flowLinks := by
  induction k generalizing g x g' with
  | zero => cases h
  | succ k ih =>
    obtain ⟨-, rfl⟩ | ⟨n, inner, inputs, content, g₁, g₂, g₃, hroot, hn, hinner, ⟨hprivate, hinputs, -⟩,
      ⟨hlisted, hcontent, -⟩, ⟨hremove, -⟩, hrelink, -⟩ := destroyWithin_deep guards_always hs.toLinksScopesValid h
    · exact ⟨rfl, fun _ => id⟩
    obtain ⟨m, hm, hplain, -, hfree⟩ := hx
    cases hn.symm.trans hm
    have hdone : Steps always g g₁ ∧ g₁.entries = g.entries ∧ ∀ l ∈ g₁.flowLinks, l ∈ g.flowLinks := by
      refine foldlM_induction (P := fun h => Steps always g h ∧ h.entries = g.entries ∧ ∀ l ∈ h.flowLinks,
        l ∈ g.flowLinks)
        hinputs ⟨.refl, rfl, fun _ => id⟩ ?_
      rintro h₁ y hy h₂ ⟨hsteps, hquiet, hflow⟩ hdestroy
      have hs₁ := hs.steps hsteps
      have hprivateInput := (hs.linksMatch.mem_privateInputs_iff hn hprivate).1 hy
      cases hlive : h₁.nodeAt? y with
      | none =>
        rw [destroyWithin_of_gone (.inr hlive) hdestroy]
        exact ⟨hsteps, hquiet, hflow⟩
      | some m =>
        have hy₁ := (hprivateInput.isExpression hl hs.linksMatch).survivorsKept hsteps.survivorsKept hflow
            (Option.isSome_of_mem hlive)
        obtain ⟨hquiet', hflow'⟩ := ih hs₁ (hl.steps hsteps) hy₁ hdestroy
        exact ⟨hsteps.trans (destroyWithin_steps guards_always hs₁.toLinksScopesValid hdestroy), hquiet'.trans hquiet,
          fun l hl => hflow l (hflow' l hl)⟩
    obtain ⟨hsteps, hquiet, hflow⟩ := hdone
    obtain rfl := (innerScopes_eq_nil_iff hinner hn).2 hplain
    cases hlisted
    cases hcontent
    rw [hs.linksMatch.bypass_eq_none hn hfree] at hrelink
    cases hrelink
    refine ⟨(entries_remove hremove).trans hquiet, fun l hl => hflow l ?_⟩
    exact ((links_remove (hs.steps hsteps).linksMatch hremove .flow l).1 hl).1

structure InputsRemoved (g h : Graph) (id : NodeId) : Prop extends InputsDestroyed g h id where
  steps : Steps always g h
  entries : h.entries = g.entries
  acc {x : NodeId} : (g.nodeAt? x).isSome → h.nodeAt? x = none → Acc (fun b a => PrivateInput g a b) x

theorem InputsRemoved.refl (hw : LinksMatch g) (id : NodeId) : InputsRemoved g g id := by
  have hnone {x : NodeId} (hlive : (g.nodeAt? x).isSome) (hgone : g.nodeAt? x = none) : False := by
    rw [hgone] at hlive
    cases hlive
  refine ⟨⟨.refl hw, fun _ => .rfl, fun hlive hgone => (hnone hlive hgone).elim, fun {x y} hgone hxy => ?_⟩, .refl, rfl,
    fun hlive hgone => (hnone hlive hgone).elim⟩
  exact (hnone (hxy.live hw).1 hgone).elim

theorem InputsRemoved.next {h₁ h₂ : Graph} (hs : WellFormed g) (hl : HasLayouts g) (h : InputsRemoved g h₁ id)
    (hx : PrivateInput g id x) (hacc : (h₁.nodeAt? x).isSome → Acc (fun b a => PrivateInput h₁ a b) x)
    (hdestroy : destroyWithin true k h₁ x = .ok h₂) :
    InputsRemoved g h₂ id ∧ Acc (fun b a => PrivateInput g a b) x := by
  have hlive := (hx.live hs.linksMatch).2
  cases hn₁ : h₁.nodeAt? x with
  | none =>
    rw [destroyWithin_of_gone (.inr hn₁) hdestroy]
    exact ⟨h, h.acc hlive hn₁⟩
  | some n₁ =>
    have hlive₁ : (h₁.nodeAt? x).isSome := Option.isSome_of_mem hn₁
    have hs₁ := hs.steps h.steps
    have hl₁ := hl.steps h.steps
    have hx₁ := (hx.isExpression hl hs.linksMatch).survivorsKept h.toSurvivorsKept (fun l hl => (h.flow l).1 hl) hlive₁
    obtain ⟨hquiet, -⟩ := quiet_destroyWithin hs₁ hl₁ hx₁ hdestroy
    have hdestroysExactly := destroyWithinExact k hs₁ hl₁ (hx₁.ne_root hs₁.rootIsEntryPoint) hlive₁ hdestroy hquiet
    have hprivateInput {a b : NodeId} (ha : (h₁.nodeAt? a).isSome) (hb : (h₁.nodeAt? b).isSome) : PrivateInput h₁ a b ↔
        PrivateInput g a b :=
      h.toOnlyRemoves.privateInput_iff hs.linksMatch hs₁.linksMatch h.flow hb ha
    have hall : Acc (fun b a => PrivateInput g a b) x := by
      refine Acc.recOn (motive := fun y _ => (h₁.nodeAt? y).isSome → Acc (fun b a => PrivateInput g a b) y)
        (hacc hlive₁) ?_ hlive₁
      intro y _ ih hy
      refine ⟨_, fun z hyz => ?_⟩
      cases hz : h₁.nodeAt? z with
      | none => exact h.acc (hyz.live hs.linksMatch).2 hz
      | some m =>
        have hz := Option.isSome_of_mem hz
        exact ih z ((hprivateInput hy hz).2 hyz) hz
    refine ⟨⟨(destroyWithinExact k).strip_one hs hl hx h.steps h.toInputsDestroyed hdestroy hquiet, ?_,
      hquiet.trans h.entries, ?_⟩, hall⟩
    · exact h.steps.trans (destroyWithin_steps guards_always hs₁.toLinksScopesValid hdestroy)
    · intro y hy hgone
      cases hy₁ : h₁.nodeAt? y with
      | none => exact h.acc hy hy₁
      | some m =>
        obtain ⟨m₁, hm₁, hplain, -⟩ := hx₁
        have hback {a b : NodeId} (hab : PrivateInput h₁ a b) : PrivateInput g a b := by
          obtain ⟨ha, hb⟩ := hab.live hs₁.linksMatch
          exact (hprivateInput ha hb).1 hab
        obtain rfl | hinside | hchain := hdestroysExactly.of_gone (Option.isSome_of_mem hy₁) hgone
        · exact hall
        · exact (hs₁.scopesOwned.not_inside hm₁ hplain hinside).elim
        · clear hgone hy hy₁
          induction hchain with
          | single hxy => exact hall.inv (hback hxy)
          | tail _ hyz ih => exact ih.inv (hback hyz)

def DestroyAvoidsCircles (k : Nat) : Prop :=
  ∀ ⦃g : Graph⦄ ⦃id : NodeId⦄ ⦃g' : Graph⦄, WellFormed g → HasLayouts g → id ≠ g.root →
  (g.nodeAt? id).isSome → destroyWithin true k g id = .ok g' → Acc (fun b a => PrivateInput g a b) id

theorem DestroyAvoidsCircles.inputsRemoved (hu : DestroyAvoidsCircles k) (hs : WellFormed g) (hl : HasLayouts g)
    (hprivateInput : ∀ x ∈ inputs, PrivateInput g id x) (h : inputs.foldlM (destroyWithin true k) g = .ok g') :
    InputsRemoved g g' id ∧ ∀ x ∈ inputs, Acc (fun b a => PrivateInput g a b) x := by
  refine foldlM_visits (P := fun h => InputsRemoved g h id) (Q := fun x _ => Acc (fun b a => PrivateInput g a b) x) h
    (.refl hs.linksMatch id) fun h₁ x hx h₂ hinputsRemoved hdestroy => ?_
  have hs₁ := hs.steps hinputsRemoved.steps
  have hx₁ : (h₁.nodeAt? x).isSome → Expression h₁ x :=
    ((hprivateInput x hx).isExpression hl hs.linksMatch).survivorsKept hinputsRemoved.toSurvivorsKept
      fun l hl => (hinputsRemoved.flow l).1 hl
  obtain ⟨hnext, hacc⟩ := hinputsRemoved.next hs hl (hprivateInput x hx)
    (fun hlive => hu hs₁ (hl.steps hinputsRemoved.steps) ((hx₁ hlive).ne_root hs₁.rootIsEntryPoint)
      hlive hdestroy) hdestroy
  exact ⟨hnext, hacc, fun _ hb => hb⟩

theorem destroyAvoidsCircles (k : Nat) : DestroyAvoidsCircles k := by
  induction k with
  | zero =>
    rintro g id g' - - - - ⟨⟩
  | succ k ih =>
    intro g id g' hs hl hroot hlive h
    obtain ⟨heither, -⟩ | ⟨n, inner, inputs, content, g₁, g₂, g₃, -, hn, -, ⟨hprivate, hinputs, -⟩, -⟩ :=
      destroyWithin_deep guards_always hs.toLinksScopesValid h
    · obtain hself | hnone := heither
      · exact (hroot hself).elim
      · rw [hnone] at hlive
        cases hlive
    have hprivateInput {x : NodeId} : x ∈ inputs ↔ PrivateInput g id x :=
      hs.linksMatch.mem_privateInputs_iff hn hprivate
    obtain ⟨-, hall⟩ := DestroyAvoidsCircles.inputsRemoved ih hs hl (fun x => hprivateInput.1) hinputs
    exact ⟨_, fun x hx => hall x (hprivateInput.2 hx)⟩

end FlowGraph.Graph
