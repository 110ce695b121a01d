/-!
Texts with gaps. Two texts that differ in known places only are one text with gaps, filled in two
ways. Such texts are put together piece by piece (`fill_append`), gaps may be filled with texts that
have gaps themselves (`fill_bind`), and what stands around every gap is kept by both.
-/

namespace SafeForms

universe u v

/-- A text with gaps, each of which carries a label. -/
inductive Gapped (α : Type u) where
  | text (t : String)
  | gap (before : String) (label : α) (after : Gapped α)
  deriving Repr, DecidableEq

namespace Gapped

variable {α : Type u} {β : Type v}

/-- The text with every gap filled as its label says. -/
def fill (f : α → String) : Gapped α → String
  | text t => t
  | gap t a rest => t ++ f a ++ rest.fill f

/-- The labels of the gaps in order. -/
def gaps : Gapped α → List α
  | text _ => []
  | gap _ a rest => a :: rest.gaps

/-- What stands before the first gap. -/
def start : Gapped α → String
  | text t | gap t _ _ => t

def prepend (t : String) : Gapped α → Gapped α
  | text u => text (t ++ u)
  | gap u a rest => gap (t ++ u) a rest

protected def append : Gapped α → Gapped α → Gapped α
  | text t, g => g.prepend t
  | gap t a rest, g => gap t a (rest.append g)

instance : Append (Gapped α) := ⟨Gapped.append⟩

def map (f : α → β) : Gapped α → Gapped β
  | text t => text t
  | gap t a rest => gap t (f a) (rest.map f)

/-- Puts a text with gaps into every gap. -/
def bind (k : α → Gapped β) : Gapped α → Gapped β
  | text t => text t
  | gap t a rest => (k a ++ rest.bind k).prepend t

/-- Every gap stands directly between one of the openings and the closing. -/
def Between (openings : List String) (closing : String) : Gapped α → Prop
  | text _ => True
  | gap t _ rest =>
    (∃ opening ∈ openings, ∃ u, t = u ++ opening) ∧ (∃ u, rest.start = closing ++ u) ∧
      rest.Between openings closing

theorem text_append (t : String) (g : Gapped α) : text t ++ g = g.prepend t := rfl

theorem gap_append (t : String) (a : α) (rest g : Gapped α) :
    gap t a rest ++ g = gap t a (rest ++ g) := rfl

@[simp] theorem fill_prepend (f : α → String) (t : String) (g : Gapped α) :
    (g.prepend t).fill f = t ++ g.fill f := by
  cases g <;> simp [prepend, fill, String.append_assoc]

@[simp] theorem fill_append (f : α → String) (g h : Gapped α) :
    (g ++ h).fill f = g.fill f ++ h.fill f := by
  induction g with
  | text t => rw [text_append, fill_prepend, fill]
  | gap t a rest ih => simp only [gap_append, fill, ih, String.append_assoc]

theorem fill_map (f : β → String) (change : α → β) (g : Gapped α) :
    (g.map change).fill f = g.fill (f ∘ change) := by
  induction g with
  | text t => rfl
  | gap t a rest ih => rw [map, fill, ih, fill, Function.comp_apply]

theorem fill_bind (f : β → String) (k : α → Gapped β) (g : Gapped α) :
    (g.bind k).fill f = g.fill fun a => (k a).fill f := by
  induction g with
  | text t => rfl
  | gap t a rest ih => rw [bind, fill_prepend, fill_append, ih, fill, String.append_assoc]

/-- What a gap is filled with stands in the text. -/
theorem fill_of_mem_gaps (f : α → String) {a : α} {g : Gapped α} (h : a ∈ g.gaps) :
    ∃ before after, g.fill f = before ++ f a ++ after := by
  induction g with
  | text t => cases h
  | gap t b rest ih =>
      rcases List.mem_cons.mp h with rfl | later
      · exact ⟨t, rest.fill f, rfl⟩
      · obtain ⟨before, after, e⟩ := ih later
        exact ⟨t ++ f b ++ before, after, by simp only [fill, e, String.append_assoc]⟩

@[simp] theorem gaps_prepend (t : String) (g : Gapped α) : (g.prepend t).gaps = g.gaps := by
  cases g <;> rfl

@[simp] theorem gaps_append (g h : Gapped α) : (g ++ h).gaps = g.gaps ++ h.gaps := by
  induction g with
  | text t => rw [text_append, gaps_prepend, gaps, List.nil_append]
  | gap t a rest ih => rw [gap_append, gaps, ih, gaps, List.cons_append]

theorem gaps_bind (k : α → Gapped β) (g : Gapped α) :
    (g.bind k).gaps = g.gaps.flatMap fun a => (k a).gaps := by
  induction g with
  | text t => rfl
  | gap t a rest ih => rw [bind, gaps_prepend, gaps_append, ih, gaps, List.flatMap_cons]

@[simp] theorem map_prepend (f : α → β) (t : String) (g : Gapped α) :
    (g.prepend t).map f = (g.map f).prepend t := by
  cases g <;> rfl

@[simp] theorem map_append (f : α → β) (g h : Gapped α) : (g ++ h).map f = g.map f ++ h.map f := by
  induction g with
  | text t => exact map_prepend f t h
  | gap t a rest ih => rw [gap_append, map, ih, map, gap_append]

variable {openings : List String} {closing : String}

theorem Between.prepend {g : Gapped α} (h : g.Between openings closing) (t : String) :
    (g.prepend t).Between openings closing := by
  cases g with
  | text u => trivial
  | gap u a rest =>
      obtain ⟨⟨opening, known, before, rfl⟩, closed, others⟩ := h
      exact ⟨⟨opening, known, t ++ before, (String.append_assoc ..).symm⟩, closed, others⟩

theorem start_append (g h : Gapped α) : ∃ t, (g ++ h).start = g.start ++ t := by
  cases g with
  | text t => cases h <;> exact ⟨_, rfl⟩
  | gap t a rest => exact ⟨"", (String.append_empty).symm⟩

theorem Between.append {g h : Gapped α} (left : g.Between openings closing)
    (right : h.Between openings closing) : (g ++ h).Between openings closing := by
  induction g with
  | text t => exact right.prepend t
  | gap t a rest ih =>
      obtain ⟨opened, ⟨u, closed⟩, others⟩ := left
      obtain ⟨more, longer⟩ := start_append rest h
      refine ⟨opened, ⟨u ++ more, ?_⟩, ih others⟩
      exact longer.trans (by rw [closed, String.append_assoc])

theorem Between.bind {k : α → Gapped β} (each : ∀ a, (k a).Between openings closing)
    (g : Gapped α) : (g.bind k).Between openings closing := by
  induction g with
  | text t => trivial
  | gap t a rest ih => exact ((each a).append ih).prepend t

end Gapped
end SafeForms
