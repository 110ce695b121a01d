import SafeForms.Proofs.Readings

/-!
The trees of a fragment are one tree, that of its root element. The modes in which something is put
before or behind the root are never reached: none is started in, returned to after a text, waited
for in a template or stood for by the open elements, and a fragment is never left behind its body.
-/

namespace SafeForms.Html

variable {Q : Attributes → Prop}

/-- A fragment in a state in which everything goes below its root. -/
structure Builder.Enclosed (b : Builder) : Prop where
  fragment : b.settings.fragment = true
  mode : b.mode.Inner
  resume : b.resume.Inner
  templates : ∀ mode ∈ b.templates, mode.Inner
  prolog : b.prolog = .nil
  epilog : b.epilog = .nil

theorem inner_selectMode (es : List Element) : (Builder.selectMode es).Inner := by
  induction es with
  | nil => decide
  | cons e es ih =>
      rw [Builder.selectMode]
      split
      · decide
      · split
        · decide
        · exact ih

namespace Builder.Enclosed

variable {b : Builder}

theorem inner_ownMode (h : b.Enclosed) (e : Element) (es : List Element) {mode : Mode}
    (inner : mode.Inner) : ((b.ownMode e es).getD mode).Inner := by
  have waiting : (b.templates.head?.getD .inBody).Inner := by
    cases e : b.templates.head? with
    | none => decide
    | some mode => exact h.templates mode (List.mem_of_head? e)
  have select := inner_selectMode es
  fun_cases Builder.ownMode b e es <;> grind [Mode.Inner]

theorem inner_modeOf (h : b.Enclosed) (es : List Element) : (b.modeOf es).Inner := by
  fun_induction Builder.modeOf b es with
  | case1 => decide
  | case2 => decide
  | case3 _ whole => exact absurd h.fragment whole
  | case4 e es _ ih => exact h.inner_ownMode e es ih

end Builder.Enclosed

theorem Acts.enclosed {s b : Builder} (acts : Acts Q s b) (h : s.Enclosed) : b.Enclosed := by
  induction acts with
  | refl => exact h
  | change _ _ ih | note _ _ _ _ _ ih => exact { ih with }
  | switch _ inner ih => exact { ih with mode := inner }
  | reset _ ih => exact { ih with mode := ih.inner_modeOf _ }
  | beginText lexing _ ih =>
      exact { ih with mode := (by decide : Mode.inText.Inner), resume := ih.mode }
  | endText _ ih => exact { ih with mode := ih.resume }
  | openTemplate _ ih =>
      have template : Mode.inTemplate.Inner := by decide
      exact { ih with
        mode := template
        templates := List.forall_mem_cons.mpr ⟨template, ih.templates⟩ }
  | switchTemplate _ inner ih =>
      have others := fun mode mem => ih.templates mode (List.mem_of_mem_tail mem)
      exact { ih with mode := inner, templates := List.forall_mem_cons.mpr ⟨inner, others⟩ }
  | closeTemplate _ ih =>
      exact { ih with
        templates := fun mode mem => ih.templates mode (List.mem_of_mem_tail mem) }
  -- the other acts are made in modes that are not reached, or not in a fragment
  | addBefore _ outer _ ih => exact absurd outer (not_or.mpr ⟨ih.mode.1, ih.mode.2.1⟩)
  | beginRoot _ initial ih => exact absurd initial ih.mode.1
  | addBehind _ _ behind ih => exact absurd behind ih.mode.2.2
  | endRoot _ whole ih => simp [ih.fragment] at whole

theorem enclosed_start {settings : Settings} (fragment : settings.fragment = true) :
    (Builder.start settings).Enclosed where
  fragment := fragment
  mode := by
    rw [Builder.start, if_pos fragment]
    exact (by decide : Mode.inBody.Inner)
  resume := (by decide : Mode.inBody.Inner)
  templates := nofun
  prolog := rfl
  epilog := rfl

/-- A fragment is read as one root element with all else below it. -/
theorem parse_fragment {settings : Settings} (fragment : settings.fragment = true)
    (source : Source) :
    ∃ attrs children, parse settings source =
      .node (.element ⟨.html, "html", attrs⟩) .nil children .nil := by
  have enclosed := (Acts.of_text settings source).enclosed (enclosed_start fragment)
  rw [parse_eq, Builder.markup, enclosed.prolog, enclosed.epilog]
  exact ⟨_, _, rfl⟩

end SafeForms.Html
