import SequentCalculus.Connective

/-!
# Formulas

A formula is a handle: its place in a store (`Store`) and its kind.  Because a store never holds
two equal formulas, comparing handles of one store compares the formulas themselves, and the order
of handles is the order in which the formulas were first built.

The first two places of every store are taken by the constants.
-/

namespace SequentCalculus

/-- A formula of a store: its place there, and its kind. -/
structure Formula where
  /-- The place in the store, counted from 0 in the order of construction. -/
  index : Nat
  /-- Atomic, or the outermost connective. -/
  kind : Kind
  deriving DecidableEq, Repr

namespace Formula

/-- The constant that is false: the first formula of every store. -/
def falsum : Formula := ⟨0, .atomic⟩

/-- The constant that is true: the second formula of every store. -/
def verum : Formula := ⟨1, .atomic⟩

/-- The order of construction; the kind only settles it between handles of different stores. -/
instance : LE Formula where
  le f g := f.index < g.index ∨ (f.index = g.index ∧ f.kind.rank ≤ g.kind.rank)

theorem le_def {f g : Formula} :
    f ≤ g ↔ f.index < g.index ∨ (f.index = g.index ∧ f.kind.rank ≤ g.kind.rank) :=
  Iff.rfl

instance (f g : Formula) : Decidable (f ≤ g) :=
  decidable_of_iff _ le_def.symm

theorem le_total (f g : Formula) : f ≤ g ∨ g ≤ f := by
  simp only [le_def]; omega

theorem le_trans {f g h : Formula} (hfg : f ≤ g) (hgh : g ≤ h) : f ≤ h := by
  simp only [le_def] at *; omega

theorem le_antisymm {f g : Formula} (hfg : f ≤ g) (hgf : g ≤ f) : f = g := by
  simp only [le_def] at *
  have hindex : f.index = g.index := by omega
  have hkind : f.kind = g.kind := Kind.rank_inj (by omega)
  cases f; cases g; simp_all

/-- The order without equality. -/
instance : LT Formula where
  lt f g := f.index < g.index ∨ (f.index = g.index ∧ f.kind.rank < g.kind.rank)

theorem lt_def {f g : Formula} :
    f < g ↔ f.index < g.index ∨ (f.index = g.index ∧ f.kind.rank < g.kind.rank) :=
  Iff.rfl

theorem le_of_lt {f g : Formula} (h : f < g) : f ≤ g := by
  simp only [lt_def, le_def] at *; omega

theorem ne_of_lt {f g : Formula} (h : f < g) : f ≠ g := by
  rintro rfl
  simp only [lt_def] at h
  omega

theorem lt_of_le_of_ne {f g : Formula} (hle : f ≤ g) (hne : f ≠ g) : f < g := by
  have hback : ¬g ≤ f := fun hgf => hne (le_antisymm hle hgf)
  simp only [lt_def, le_def] at *; omega

theorem lt_trans {f g h : Formula} (hfg : f < g) (hgh : g < h) : f < h := by
  simp only [lt_def] at *; omega

/-- How a formula is shown in messages: by its place and kind, since a handle alone has no text. -/
def debugText (f : Formula) : String :=
  s!"Formula \x7b id: #{f.index}, kind: {f.kind.name} \x7d"

end Formula

end SequentCalculus
