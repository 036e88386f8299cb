import Mathlib.Data.List.Basic

/-!
# Readers and their grammars

A reader takes tokens from the front of its input, or fails. It parses a grammar, a
relation of texts and values, where it accepts an input exactly if a text of the grammar
stands at its front, and leaves what follows. The grammar of a composed reader is composed
of the grammars of its parts, and a parsed grammar has no text that begins another one.
-/

namespace Calybris.Parse

variable {τ ε α β : Type}

abbrev Reader (τ ε α : Type) := StateT (List τ) (Except ε) α

def lift (r : Except ε α) : Reader τ ε α := fun s => r.map fun a => (a, s)

/-- Reads all of the input; `trailing` where something is left. -/
def runAll (x : Reader τ ε α) (trailing : ε) (s : List τ) : Except ε α :=
  match x s with
  | .error e => .error e
  | .ok (a, []) => .ok a
  | .ok (_, _ :: _) => .error trailing

/-- The reader accepts the texts of the grammar, whatever follows, and nothing else. -/
structure Parses (x : Reader τ ε α) (G : List τ → α → Prop) : Prop where
  ok_iff : ∀ {s a rest}, x s = .ok (a, rest) ↔ ∃ text, s = text ++ rest ∧ G text a

structure Spelling (G : List τ → α → Prop) where
  text : List τ
  value : α
  spells : G text value

section

variable {x : Reader τ ε α} {f : α → Reader τ ε β} {s rest : List τ} {a : α} {b : β}
  {G : List τ → α → Prop} {K : α → List τ → β → Prop}

theorem bind_eq_ok_iff :
    (x >>= f) s = .ok (b, rest) ↔ ∃ a s', x s = .ok (a, s') ∧ f a s' = .ok (b, rest) := by
  change (x s >>= fun p => f p.1 p.2) = .ok (b, rest) ↔ _
  cases hx : x s with
  | error e => simp [bind, Except.bind]
  | ok p =>
    obtain ⟨a, s'⟩ := p
    simp [bind, Except.bind]

theorem pure_eq_ok_iff {a' : α} :
    (pure a : Reader τ ε α) s = .ok (a', rest) ↔ a = a' ∧ s = rest := by
  change Except.ok (a, s) = .ok (a', rest) ↔ _
  rw [Except.ok.injEq, Prod.mk.injEq]

theorem parses_pure : Parses (pure a : Reader τ ε α) fun text a' => text = [] ∧ a' = a := by
  refine ⟨fun {s a' rest} => ?_⟩
  rw [pure_eq_ok_iff]
  constructor
  · rintro ⟨rfl, rfl⟩
    exact ⟨[], rfl, rfl, rfl⟩
  · rintro ⟨_, rfl, rfl, rfl⟩
    exact ⟨rfl, rfl⟩

theorem parses_throw {e : ε} : Parses (throw e : Reader τ ε α) fun _ _ => False :=
  ⟨iff_of_false nofun fun ⟨_, _, h⟩ => h⟩

theorem parses_lift {r : Except ε α} :
    Parses (lift r : Reader τ ε α) fun text a => text = [] ∧ r = .ok a := by
  refine ⟨fun {s a rest} => ?_⟩
  cases r with
  | error e => exact iff_of_false nofun fun ⟨_, _, _, h⟩ => nomatch h
  | ok a' => simpa [lift, Except.map, eq_comm] using and_comm

theorem Parses.bind (hx : Parses x G) (hf : ∀ a, Parses (f a) (K a)) :
    Parses (x >>= f) fun text b => ∃ a t t', text = t ++ t' ∧ G t a ∧ K a t' b := by
  refine ⟨fun {s b rest} => ?_⟩
  rw [bind_eq_ok_iff]
  constructor
  · rintro ⟨a, s', ha, hb⟩
    obtain ⟨t, rfl, ht⟩ := hx.ok_iff.1 ha
    obtain ⟨t', rfl, ht'⟩ := (hf a).ok_iff.1 hb
    exact ⟨t ++ t', (List.append_assoc _ _ _).symm, a, t, t', rfl, ht, ht'⟩
  · rintro ⟨_, rfl, a, t, t', rfl, ht, ht'⟩
    exact ⟨a, t' ++ rest, hx.ok_iff.2 ⟨t, List.append_assoc _ _ _, ht⟩,
      (hf a).ok_iff.2 ⟨t', rfl, ht'⟩⟩

theorem Parses.ite {p : Prop} [Decidable p] {y : Reader τ ε α} {G' : List τ → α → Prop}
    (hx : p → Parses x G) (hy : ¬ p → Parses y G') :
    Parses (if p then x else y) fun text a => if p then G text a else G' text a := by
  by_cases hp : p
  · simpa only [hp, if_true] using hx hp
  · simpa only [hp, if_false] using hy hp

theorem Parses.congr {G' : List τ → α → Prop} (h : Parses x G)
    (hG : ∀ text a, G text a ↔ G' text a) : Parses x G' := by
  refine ⟨fun {s a rest} => ?_⟩
  rw [h.ok_iff]
  simp only [hG]

theorem runAll_eq_ok_iff {trailing : ε} : runAll x trailing s = .ok a ↔ x s = .ok (a, []) := by
  rw [runAll]
  split
  · next hx => simp [hx]
  · next hx => simp [hx]
  · next hx => simp [hx]

theorem Parses.runAll_eq_ok_iff (h : Parses x G) {trailing : ε} :
    runAll x trailing s = .ok a ↔ G s a := by
  rw [Parse.runAll_eq_ok_iff, h.ok_iff]
  simp

theorem Parses.map_runAll_eq_ok_iff (h : Parses x G) {trailing : ε} {f : α → β} :
    (runAll x trailing s).map f = .ok b ↔ ∃ a, G s a ∧ f a = b := by
  simp only [← @Parses.runAll_eq_ok_iff _ _ _ _ s _ _ h trailing]
  cases runAll x trailing s with
  | error e => exact iff_of_false nofun fun ⟨_, h, _⟩ => nomatch h
  | ok a => simp [Except.map]

theorem Parses.inj (h : Parses x G) {t t' rest' : List τ} {a' : α} (ht : G t a) (ht' : G t' a')
    (heq : t ++ rest = t' ++ rest') : t = t' ∧ a = a' ∧ rest = rest' := by
  have hread := (h.ok_iff.2 ⟨t, rfl, ht⟩).symm.trans (heq ▸ h.ok_iff.2 ⟨t', rfl, ht'⟩)
  cases hread
  exact ⟨List.append_cancel_right heq, rfl, rfl⟩

theorem Parses.spelling_inj (h : Parses x G) {spelling spelling' : Spelling G} {rest' : List τ}
    (heq : spelling.text ++ rest = spelling'.text ++ rest') :
    spelling = spelling' ∧ rest = rest' := by
  obtain ⟨htext, hvalue, hrest⟩ := h.inj spelling.spells spelling'.spells heq
  cases spelling
  cases htext
  cases hvalue
  exact ⟨rfl, hrest⟩

end

end Calybris.Parse
