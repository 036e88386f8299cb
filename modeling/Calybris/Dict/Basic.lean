import Mathlib.Algebra.BigOperators.Group.List.Basic
import Mathlib.Data.List.Nodup
import Mathlib.Tactic.Abel

/-!
# Dictionaries that keep the order of insertion

A key has one value. Writing to a key that is there replaces its value where it
stands; a new key comes last. The sum of something over the values changes by what the
written key had before and has now.
-/

namespace Calybris

open List Option

variable {κ ν : Type*} [DecidableEq κ]

namespace Entries

def put (k : κ) (v : ν) : List (κ × ν) → List (κ × ν)
  | [] => [(k, v)]
  | e :: es => if e.1 = k then (k, v) :: es else e :: put k v es

def find (k : κ) : List (κ × ν) → Option ν
  | [] => none
  | e :: es => if e.1 = k then some e.2 else find k es

attribute [local grind =] put find

variable {k k' : κ} {v : ν} {es : List (κ × ν)}

theorem keys_put :
    (put k v es).map Prod.fst =
      if k ∈ es.map Prod.fst then es.map Prod.fst else es.map Prod.fst ++ [k] := by
  induction es with
  | nil => rfl
  | cons e es ih =>
    by_cases he : e.1 = k
    · simp [put, he]
    · by_cases hk : k ∈ es.map Prod.fst
      · rw [put, if_neg he, map_cons, ih, if_pos hk, if_pos (by simp [hk]), map_cons]
      · have hnot : k ∉ (e :: es).map Prod.fst := by
          rw [map_cons, mem_cons, not_or]
          exact ⟨Ne.symm he, hk⟩
        rw [put, if_neg he, map_cons, ih, if_neg hk, if_neg hnot, map_cons, cons_append]

theorem nodup_keys_put (h : (es.map Prod.fst).Nodup) : ((put k v es).map Prod.fst).Nodup := by
  rw [keys_put]
  split
  · exact h
  · next hnew =>
    rw [nodup_append]
    refine ⟨h, nodup_singleton k, fun a ha b hb heq => hnew ?_⟩
    rwa [← mem_singleton.1 hb, ← heq]

theorem find_put : find k' (put k v es) = if k' = k then some v else find k' es := by
  induction es with
  | nil =>
    simp only [put, find, eq_comm]
  | cons e es ih =>
    by_cases he : e.1 = k
    · by_cases hk : k' = k
      · simp [put, find, he, hk]
      · simp [put, find, he, hk, Ne.symm hk]
    · by_cases hk : k' = k
      · subst hk
        rw [put, if_neg he, find, if_neg he, ih, if_pos rfl, if_pos rfl]
      · rw [put, if_neg he, find, ih, if_neg hk, if_neg hk, find]

theorem put_self_mem : (k, v) ∈ put k v es := by
  induction es with
  | nil => exact mem_cons_self
  | cons e es ih =>
    rw [put]
    split_ifs
    · exact mem_cons_self
    · exact mem_cons_of_mem _ ih

theorem mem_of_mem_put {x : κ × ν} (h : x ∈ put k v es) : x = (k, v) ∨ x ∈ es := by
  induction es with
  | nil => exact .inl (mem_singleton.1 h)
  | cons e es ih =>
    rw [put] at h
    split_ifs at h
    · exact (mem_cons.1 h).imp_right (mem_cons_of_mem _)
    · rcases mem_cons.1 h with rfl | h
      · exact .inr mem_cons_self
      · exact (ih h).imp_right (mem_cons_of_mem _)

theorem mem_of_find_eq_some (h : find k es = some v) : (k, v) ∈ es := by
  induction es with
  | nil => cases h
  | cons e es ih =>
    rw [find] at h
    split_ifs at h with he
    · cases h
      exact he ▸ mem_cons_self
    · exact mem_cons_of_mem _ (ih h)

theorem exists_find_of_mem (h : (k, v) ∈ es) : ∃ v', find k es = some v' := by
  induction es with
  | nil => cases h
  | cons e es ih =>
    rw [find]
    split_ifs with he
    · exact ⟨e.2, rfl⟩
    · exact ih ((mem_cons.1 h).resolve_left fun heq => he (congrArg Prod.fst heq.symm))

theorem put_eq_append (h : find k es = none) : put k v es = es ++ [(k, v)] := by
  induction es with
  | nil => rfl
  | cons e es ih =>
    rw [find] at h
    split_ifs at h with he
    rw [put, if_neg he, ih h, cons_append]

theorem mem_put_or (k : κ) (v : ν) {x : κ × ν} (h : x ∈ es) :
    x ∈ put k v es ∨ find k es = some x.2 ∧ x.1 = k := by
  induction es with
  | nil => cases h
  | cons e es ih =>
    by_cases he : e.1 = k
    · rw [put, find, if_pos he, if_pos he]
      rcases mem_cons.1 h with rfl | h
      · exact .inr ⟨rfl, he⟩
      · exact .inl (mem_cons_of_mem _ h)
    · rw [put, find, if_neg he, if_neg he]
      rcases mem_cons.1 h with rfl | h
      · exact .inl mem_cons_self
      · exact (ih h).imp_left (mem_cons_of_mem _)

theorem find_eq_some (h : (es.map Prod.fst).Nodup) : find k es = some v ↔ (k, v) ∈ es := by
  induction es with
  | nil => simp [find]
  | cons e es ih =>
    obtain ⟨hnot, hrest⟩ := nodup_cons.1 h
    by_cases he : e.1 = k
    · have hmem : (k, v) ∉ es := fun hmem => hnot (he ▸ mem_map_of_mem hmem)
      rw [find, if_pos he, mem_cons, or_iff_left hmem, some.injEq]
      exact ⟨fun hv => Prod.ext he.symm hv.symm, fun hv => hv ▸ rfl⟩
    · rw [find, if_neg he, ih hrest, mem_cons]
      exact (or_iff_right fun hv => he (congrArg Prod.fst hv).symm).symm

theorem sum_put_add {M : Type*} [AddCommMonoid M] (f : κ × ν → M) (k : κ) (v : ν)
    (es : List (κ × ν)) :
    ((put k v es).map f).sum + ((find k es).map fun old => f (k, old)).getD 0 =
      (es.map f).sum + f (k, v) := by
  induction es with
  | nil => simp [put, find]
  | cons e es ih =>
    by_cases he : e.1 = k
    · obtain ⟨_, old⟩ := e
      obtain rfl := he
      simp only [put, find, if_true, map_cons, sum_cons, map_some, getD_some]
      abel
    · simp only [put, find, if_neg he, map_cons, sum_cons, add_assoc, ih]

theorem sum_put {M : Type*} [AddCommGroup M] (f : ν → M) :
    ((put k v es).map fun e => f e.2).sum =
      (es.map fun e => f e.2).sum - ((find k es).map f).getD 0 + f v := by
  induction es with
  | nil => simp [put, find]
  | cons e es ih =>
    by_cases he : e.1 = k
    · simp only [put, find, if_pos he, map_cons, sum_cons, map_some, getD_some]
      abel
    · simp only [put, find, if_neg he, map_cons, sum_cons, ih]
      abel

end Entries

/-- Every key has one entry. -/
structure Dict (κ ν : Type*) where
  entries : List (κ × ν)
  nodup : (entries.map Prod.fst).Nodup

namespace Dict

def empty : Dict κ ν := ⟨[], .nil⟩

variable (d : Dict κ ν)

def get? (k : κ) : Option ν := Entries.find k d.entries

def set (k : κ) (v : ν) : Dict κ ν where
  entries := Entries.put k v d.entries
  nodup := Entries.nodup_keys_put d.nodup

def total {M : Type*} [AddCommGroup M] (f : ν → M) : M := (d.entries.map fun e => f e.2).sum

variable {d} {k k' : κ} {v : ν}

@[simp] theorem get?_empty : (empty : Dict κ ν).get? k = none := rfl

theorem get?_set : (d.set k v).get? k' = if k' = k then some v else d.get? k' := Entries.find_put

theorem of_get?_set (h : (d.set k v).get? k' = some v') :
    k' = k ∧ v' = v ∨ k' ≠ k ∧ d.get? k' = some v' := by
  rw [get?_set] at h
  split at h
  · next hk => exact .inl ⟨hk, (some.inj h).symm⟩
  · next hk => exact .inr ⟨hk, h⟩

theorem total_set {M : Type*} [AddCommGroup M] (f : ν → M) :
    (d.set k v).total f = d.total f - ((d.get? k).map f).getD 0 + f v := Entries.sum_put f

theorem length_set_of_none (h : d.get? k = none) :
    (d.set k v).entries.length = d.entries.length + 1 := by
  have hput : Entries.put k v d.entries = d.entries ++ [(k, v)] := Entries.put_eq_append h
  exact (congrArg List.length hput).trans length_append

theorem length_set_of_some {old : ν} (h : d.get? k = some old) :
    (d.set k v).entries.length = d.entries.length := by
  have hmem : k ∈ d.entries.map Prod.fst :=
    mem_map_of_mem (f := Prod.fst) (Entries.mem_of_find_eq_some h)
  have hkeys : (Entries.put k v d.entries).map Prod.fst = d.entries.map Prod.fst :=
    Entries.keys_put.trans (if_pos hmem)
  have hlength := congrArg List.length hkeys
  rwa [length_map, length_map] at hlength

theorem mem_entries : (k, v) ∈ d.entries ↔ d.get? k = some v := (Entries.find_eq_some d.nodup).symm

end Dict

end Calybris
