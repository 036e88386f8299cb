import Mathlib.Data.Set.Function
import Mathlib.Data.List.Induction

/-!
# Hash chains

Each entry is linked to the head before it, and the link is the new head. Where the
links that were computed do not collide, and none of them is the start, the head
determines the whole list: its length too.
-/

namespace Calybris.Chain

variable {H D : Type*} (link : H → D → H)

def head (start : H) (ds : List D) : H := ds.foldl link start

def linked : H → List D → List (H × D)
  | _, [] => []
  | h, d :: ds => (h, d) :: linked (link h d) ds

section

variable {link} {start : H} {ds ds' : List D} {d : D}

theorem head_append_singleton : head link start (ds ++ [d]) = link (head link start ds) d := by
  simp [head]

theorem linked_append_singleton :
    linked link start (ds ++ [d]) = linked link start ds ++ [(head link start ds, d)] := by
  induction ds generalizing start with
  | nil => rfl
  | cons x xs ih =>
    simp only [List.cons_append, linked, ih]
    rfl

theorem linked_take (n : Nat) : linked link start (ds.take n) = (linked link start ds).take n := by
  induction ds generalizing start n with
  | nil => simp [linked]
  | cons x xs ih =>
    cases n with
    | zero => rfl
    | succ n => simp [linked, ih]

theorem eq_of_head_eq {s : Set (H × D)} (hinj : Set.InjOn (fun p : H × D => link p.1 p.2) s)
    (hstart : ∀ p ∈ s, link p.1 p.2 ≠ start) (hds : ∀ p ∈ linked link start ds, p ∈ s)
    (hds' : ∀ p ∈ linked link start ds', p ∈ s)
    (h : head link start ds = head link start ds') : ds = ds' := by
  induction ds using List.reverseRecOn generalizing ds' with
  | nil =>
    cases ds' using List.reverseRecOn with
    | nil => rfl
    | append_singleton xs x =>
      rw [head_append_singleton] at h
      have hmem : (head link start xs, x) ∈ s := hds' _ (by simp [linked_append_singleton])
      exact absurd h.symm (hstart _ hmem)
  | append_singleton xs x ih =>
    have hmem : (head link start xs, x) ∈ s := hds _ (by simp [linked_append_singleton])
    cases ds' using List.reverseRecOn with
    | nil =>
      rw [head_append_singleton] at h
      exact absurd h (hstart _ hmem)
    | append_singleton ys y =>
      have hmem' : (head link start ys, y) ∈ s := hds' _ (by simp [linked_append_singleton])
      rw [head_append_singleton, head_append_singleton] at h
      obtain ⟨hhead, rfl⟩ := Prod.mk.inj (hinj hmem hmem' h)
      -- the heads before the last entries agree, so the rest does
      rw [ih (fun p hp => hds p (by simp [linked_append_singleton, hp]))
        (fun p hp => hds' p (by simp [linked_append_singleton, hp])) hhead]

end

end Calybris.Chain
