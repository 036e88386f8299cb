import Mathlib.Data.List.Basic

/-!
# Scanners

A scanner reads something off the front of a list and leaves the rest. One that looks
only at what it consumes gives the same result whatever follows.
-/

namespace Calybris.Text

variable {α β γ : Type*}

abbrev Scanner (α β : Type*) := List α → Option (β × List α)

def Scanner.Stable (p : Scanner α β) : Prop :=
  ∀ l x r t, p l = some (x, r) → p (l ++ t) = some (x, r ++ t)

def Scanner.andThen (p : Scanner α β) (q : β → Scanner α γ) : Scanner α γ := fun l =>
  (p l).bind fun x => q x.1 x.2

def Scanner.ofOption (x : Option β) : Scanner α β := fun l => x.map fun b => (b, l)

theorem Scanner.Stable.andThen {p : Scanner α β} {q : β → Scanner α γ} (hp : p.Stable)
    (hq : ∀ b, (q b).Stable) : (p.andThen q).Stable := by
  intro l x r t h
  obtain ⟨⟨b, rest⟩, hb, hrest⟩ := Option.bind_eq_some_iff.1 h
  rw [Scanner.andThen, hp l b rest t hb]
  exact hq b rest x r t hrest

theorem Scanner.stable_ofOption (x : Option β) : (Scanner.ofOption x : Scanner α β).Stable := by
  intro l b r t h
  obtain ⟨c, hc, heq⟩ := Option.map_eq_some_iff.1 h
  cases heq
  rw [Scanner.ofOption, hc]
  rfl

theorem Scanner.andThen_eq_some {p : Scanner α β} {q : β → Scanner α γ} {l rest : List α} {b : β}
    (h : p l = some (b, rest)) : p.andThen q l = q b rest := by
  rw [Scanner.andThen, h]
  rfl

variable [DecidableEq α]

def strip (text : List α) : Scanner α Unit := fun l =>
  if text.isPrefixOf l then some ((), l.drop text.length) else none

def cut (sep : α) : Scanner α (List α)
  | [] => none
  | a :: l => if a = sep then some ([], l) else (cut sep l).map fun x => (a :: x.1, x.2)

theorem strip_append (text l : List α) : strip text (text ++ l) = some ((), l) := by
  simp [strip]

theorem stable_strip (text : List α) : (strip text).Stable := by
  intro l x r t h
  unfold strip at h
  split at h
  · next hpre =>
    obtain ⟨rest, rfl⟩ := List.isPrefixOf_iff_prefix.1 hpre
    cases h
    rw [List.append_assoc, strip_append, List.drop_left]
  · cases h

theorem cut_append {sep : α} {a : List α} (h : sep ∉ a) (l : List α) :
    cut sep (a ++ sep :: l) = some (a, l) := by
  induction a with
  | nil => simp [cut]
  | cons x a ih =>
    obtain ⟨hx, ha⟩ : sep ≠ x ∧ sep ∉ a := by simpa using h
    simp [cut, Ne.symm hx, ih ha]

theorem stable_cut (sep : α) : (cut sep).Stable := by
  intro l
  induction l with
  | nil =>
    intro x r t h
    cases h
  | cons a l ih =>
    intro x r t h
    by_cases ha : a = sep
    · simp only [cut, ha, if_true] at h
      cases h
      simp [cut, ha]
    · simp only [cut, ha, if_false] at h
      obtain ⟨⟨y, rest⟩, hy, heq⟩ := Option.map_eq_some_iff.1 h
      cases heq
      simp [cut, ha, ih y rest t hy]

end Calybris.Text
