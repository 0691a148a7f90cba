import Mathlib.Order.WellFoundedSet

/-!
# Delegation from a root

A right is delegated along a relation `grants`, and one member, the `root`, has it of its
own. The relation is `Supported` if whoever delegates has received the right from someone.
That alone does not keep two members from supporting each other; if there is no cycle away
from the root, and only finitely many members delegate, it does
(`backed_of_supported`). A new delegation closes a cycle only if its source was reachable
from its target (`Acyclic.insert`).
-/

namespace PgCutover.Lib

open Relation

variable {α : Type*}

/-- Whoever delegates is the root or has received the right. -/
def Supported (grants : α → α → Prop) (root : α) : Prop :=
  ∀ g r, grants g r → g = root ∨ ∃ h, grants h g

/-- The delegations between members other than the root. -/
def Inner (grants : α → α → Prop) (root : α) (g r : α) : Prop :=
  grants g r ∧ g ≠ root ∧ r ≠ root

/-- A relation without cycles. -/
def Acyclic (r : α → α → Prop) : Prop := ∀ x, ¬ TransGen r x x

/-- A chain of delegations leads from the root to the member. -/
def Backed (grants : α → α → Prop) (root : α) : α → Prop := ReflTransGen grants root

theorem Acyclic.mono {r s : α → α → Prop} (hs : Acyclic s) (h : ∀ x y, r x y → s x y) :
    Acyclic r :=
  fun x hx => hs x (TransGen.mono h _ _ hx)

/-- A path that may use one more edge uses it or not; it does not use it twice unless its
end was connected to its start. -/
theorem transGen_insert {r s : α → α → Prop} {g t : α}
    (hs : ∀ x y, s x y → r x y ∨ x = g ∧ y = t) (hgt : ¬ ReflTransGen r t g) {x y : α}
    (h : TransGen s x y) : TransGen r x y ∨ ReflTransGen r x g ∧ ReflTransGen r t y := by
  induction h with
  | single hxy =>
    rcases hs _ _ hxy with hxy | ⟨rfl, rfl⟩
    · exact .inl (.single hxy)
    · exact .inr ⟨.refl, .refl⟩
  | tail _ hyz ih =>
    rcases hs _ _ hyz with hyz | ⟨rfl, rfl⟩
    · exact ih.imp (·.tail hyz) (fun h => ⟨h.1, h.2.tail hyz⟩)
    · rcases ih with hxy | ⟨-, hty⟩
      · exact .inr ⟨hxy.to_reflTransGen, .refl⟩
      · exact absurd hty hgt

/-- An edge whose source is not reachable from its target closes no cycle. -/
theorem Acyclic.insert {r s : α → α → Prop} (hr : Acyclic r) {g t : α}
    (hs : ∀ x y, s x y → r x y ∨ x = g ∧ y = t) (hgt : ¬ ReflTransGen r t g) : Acyclic s := by
  intro x hx
  rcases transGen_insert hs hgt hx with hx | ⟨hxg, htx⟩
  · exact hr x hx
  · exact hgt (htx.trans hxg)

/-- **Support without cycles is backing.** -/
theorem backed_of_supported {grants : α → α → Prop} {root : α}
    (hsupported : Supported grants root) (hacyclic : Acyclic (Inner grants root))
    (hfinite : {g | ∃ r, grants g r}.Finite) {g r : α} (h : grants g r) :
    Backed grants root g := by
  -- paths are a strict order, and well-founded on the finitely many sources
  have horder : IsStrictOrder α (TransGen (Inner grants root)) :=
    { irrefl := hacyclic, trans := fun _ _ _ => TransGen.trans }
  have hwf := hfinite.wellFoundedOn (r := TransGen (Inner grants root))
  refine hwf.induction (P := fun g => Backed grants root g) ⟨r, h⟩ ?_
  rintro g ⟨r, hgr⟩ ih
  rcases hsupported g r hgr with rfl | ⟨h, hhg⟩
  · exact .refl
  · by_cases hg : g = root
    · exact hg ▸ .refl
    by_cases hh : h = root
    · exact .single (hh ▸ hhg)
    · exact (ih h ⟨g, hhg⟩ (.single ⟨hhg, hh, hg⟩)).tail hhg

end PgCutover.Lib
