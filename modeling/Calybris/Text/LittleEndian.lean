import Calybris.Text.Basic

/-!
# Fixed-width little-endian fields

`toLittleEndian width n` is `n` as `width` bytes, the least significant first. A
layout is a sequence of such fields. Every field says how long it is, so a
layout is read off from the left without a separator: the `_append_inj` lemmas
split one field off two equal byte strings, and `flatMap_inj` splits a sequence
of records of one length.
-/

namespace Calybris.Text

open List

def toLittleEndian : Nat → Nat → Bytes
  | 0, _ => []
  | width + 1, n => UInt8.ofNat n :: toLittleEndian width (n / 256)

@[simp] theorem length_toLittleEndian (width n : Nat) :
    (toLittleEndian width n).length = width := by
  induction width generalizing n with
  | zero => rfl
  | succ width ih => rw [toLittleEndian, length_cons, ih]

theorem toLittleEndian_inj {width m n : Nat} (hm : m < 256 ^ width) (hn : n < 256 ^ width)
    (h : toLittleEndian width m = toLittleEndian width n) : m = n := by
  induction width generalizing m n with
  | zero => omega
  | succ width ih =>
    rw [toLittleEndian, toLittleEndian, List.cons.injEq] at h
    have hlow : m % 256 = n % 256 := by
      have := congrArg UInt8.toNat h.1
      simpa using this
    have hhigh : m / 256 = n / 256 := by
      apply ih _ _ h.2
      · rw [Nat.div_lt_iff_lt_mul (by norm_num), ← pow_succ]
        exact hm
      · rw [Nat.div_lt_iff_lt_mul (by norm_num), ← pow_succ]
        exact hn
    rw [← Nat.div_add_mod m 256, ← Nat.div_add_mod n 256, hlow, hhigh]

theorem toLittleEndian_append_inj {width m n : Nat} (hm : m < 256 ^ width)
    (hn : n < 256 ^ width) {s t : Bytes} :
    toLittleEndian width m ++ s = toLittleEndian width n ++ t ↔ m = n ∧ s = t := by
  constructor
  · intro h
    obtain ⟨hfield, hrest⟩ := append_inj h (by simp)
    exact ⟨toLittleEndian_inj hm hn hfield, hrest⟩
  · rintro ⟨rfl, rfl⟩
    rfl

/-- A sequence of records of one positive length is determined by its bytes. -/
theorem flatMap_inj {α : Type*} {f : α → Bytes} {k : Nat} (hk : 0 < k)
    (hlen : ∀ a, (f a).length = k) (hf : Function.Injective f) :
    Function.Injective (List.flatMap f) := by
  have hne : ∀ a s, f a ++ s ≠ [] := by
    intro a s h
    have := hlen a
    rw [append_eq_nil_iff] at h
    rw [h.1, length_nil] at this
    omega
  intro xs
  induction xs with
  | nil =>
    intro ys h
    cases ys with
    | nil => rfl
    | cons y ys => exact absurd h.symm (hne y _)
  | cons x xs ih =>
    intro ys h
    cases ys with
    | nil => exact absurd h (hne x _)
    | cons y ys =>
      obtain ⟨hhead, htail⟩ := append_inj h (by rw [hlen, hlen])
      rw [hf hhead, ih htail]

/-- Records that each say where they end are read off one after the other, whatever
follows the last. -/
theorem flatMap_append_inj {α : Type*} {f : α → Bytes} {P : α → Prop}
    (hf : ∀ {a b s t}, P a → P b → f a ++ s = f b ++ t → a = b ∧ s = t) {xs ys : List α}
    (hlen : xs.length = ys.length) (hxs : ∀ a ∈ xs, P a) (hys : ∀ a ∈ ys, P a) {s t : Bytes}
    (h : xs.flatMap f ++ s = ys.flatMap f ++ t) : xs = ys ∧ s = t := by
  induction xs generalizing ys with
  | nil =>
    obtain rfl := eq_nil_of_length_eq_zero hlen.symm
    exact ⟨rfl, h⟩
  | cons x xs ih =>
    cases ys with
    | nil => cases hlen
    | cons y ys =>
      rw [flatMap_cons, flatMap_cons, append_assoc, append_assoc] at h
      obtain ⟨rfl, htail⟩ := hf (hxs x mem_cons_self) (hys y mem_cons_self) h
      obtain ⟨rfl, hrest⟩ := ih (Nat.succ.inj hlen)
        (fun a ha => hxs a (mem_cons_of_mem _ ha))
        (fun a ha => hys a (mem_cons_of_mem _ ha)) htail
      exact ⟨rfl, hrest⟩

def optional {α : Type*} (f : α → Bytes) : Option α → Bytes
  | some a => 1 :: f a
  | none => [0]

theorem optional_append_inj {α : Type*} {f : α → Bytes}
    (hf : ∀ {a b s t}, f a ++ s = f b ++ t → a = b ∧ s = t) {x y : Option α} {s t : Bytes} :
    optional f x ++ s = optional f y ++ t ↔ x = y ∧ s = t := by
  constructor
  · intro h
    cases x with
    | none =>
      cases y with
      | none => exact ⟨rfl, (List.cons.inj h).2⟩
      | some b => exact absurd (List.cons.inj h).1 (by decide)
    | some a =>
      cases y with
      | none => exact absurd (List.cons.inj h).1 (by decide)
      | some b =>
        obtain ⟨rfl, hrest⟩ := hf (List.cons.inj h).2
        exact ⟨rfl, hrest⟩
  · rintro ⟨rfl, rfl⟩
    rfl

section Words

def le16 (x : UInt16) : Bytes := toLittleEndian 2 x.toNat

def le32 (x : UInt32) : Bytes := toLittleEndian 4 x.toNat

def le64 (x : UInt64) : Bytes := toLittleEndian 8 x.toNat

def leI64 (x : Int64) : Bytes := le64 x.toUInt64

variable {s t : Bytes}

@[simp] theorem length_le16 (x : UInt16) : (le16 x).length = 2 := length_toLittleEndian _ _

@[simp] theorem length_le32 (x : UInt32) : (le32 x).length = 4 := length_toLittleEndian _ _

@[simp] theorem length_le64 (x : UInt64) : (le64 x).length = 8 := length_toLittleEndian _ _

@[simp] theorem le16_append_inj {x y : UInt16} : le16 x ++ s = le16 y ++ t ↔ x = y ∧ s = t := by
  rw [le16, le16, toLittleEndian_append_inj x.toNat_lt y.toNat_lt, UInt16.toNat_inj]

@[simp] theorem le32_append_inj {x y : UInt32} : le32 x ++ s = le32 y ++ t ↔ x = y ∧ s = t := by
  rw [le32, le32, toLittleEndian_append_inj x.toNat_lt y.toNat_lt, UInt32.toNat_inj]

@[simp] theorem le64_append_inj {x y : UInt64} : le64 x ++ s = le64 y ++ t ↔ x = y ∧ s = t := by
  rw [le64, le64, toLittleEndian_append_inj x.toNat_lt y.toNat_lt, UInt64.toNat_inj]

@[simp] theorem le64_inj {x y : UInt64} : le64 x = le64 y ↔ x = y := by
  simpa using le64_append_inj (x := x) (y := y) (s := []) (t := [])

end Words

end Calybris.Text
