/-
Association lists: the dictionaries of this library. An `Assoc` lists its
pairs in the order in which their keys first came, and a key that comes
again is answered by replacing the value at its first place, so order and
content are settled by one operation, `put`. Lists that have to be read in
key order are built with `putSorted` instead, which keeps strictly
increasing keys strictly increasing.

Everything here is plain structural recursion over the list, so a look-up
in a concrete dictionary computes.
-/
namespace ScopeRules

/-- A dictionary as the list of its pairs, in the order of first insertion. -/
abbrev Assoc (κ α : Type) := List (κ × α)

namespace Assoc

variable {κ α : Type} [DecidableEq κ]

-- ============================================================= reading

def keys (d : Assoc κ α) : List κ := d.map Prod.fst

/-- The value under `k`; of several pairs with that key the first counts. -/
def get? (d : Assoc κ α) (k : κ) : Option α :=
  match d with
  | [] => none
  | (j, v) :: rest => if j = k then some v else get? rest k

/-- Whether some pair has the key `k`. -/
def has (d : Assoc κ α) (k : κ) : Bool := (d.get? k).isSome

/-- The keys are strictly increasing. -/
def Sorted (lt : κ → κ → Bool) (d : Assoc κ α) : Prop := d.keys.Pairwise fun a b => lt a b = true

/-- No key occurs twice. Every dictionary built by `put` from the empty
one has this, and `erase` keeps it. -/
def Distinct (d : Assoc κ α) : Prop := d.keys.Nodup

-- ============================================================= writing

/-- Stores `v` under `k`: in place when the key is there, else at the end. -/
def put (d : Assoc κ α) (k : κ) (v : α) : Assoc κ α :=
  match d with
  | [] => [(k, v)]
  | (j, w) :: rest => if j = k then (k, v) :: rest else (j, w) :: put rest k v

/-- Removes every pair with the key `k`. -/
def erase (d : Assoc κ α) (k : κ) : Assoc κ α :=
  match d with
  | [] => []
  | (j, w) :: rest => if j = k then erase rest k else (j, w) :: erase rest k

/-- The dictionary that storing the pairs one after the other builds. -/
def ofPairs (pairs : List (κ × α)) : Assoc κ α :=
  pairs.foldl (fun d p => d.put p.1 p.2) []

/-- Stores `v` under `k` before the first greater key. -/
def putSorted (lt : κ → κ → Bool) (d : Assoc κ α) (k : κ) (v : α) : Assoc κ α :=
  match d with
  | [] => [(k, v)]
  | (j, w) :: rest =>
    if j = k then (k, v) :: rest
    else if lt k j then (k, v) :: (j, w) :: rest
    else (j, w) :: putSorted lt rest k v

/-- The pairs in the order of their keys. -/
def sorted (lt : κ → κ → Bool) (d : Assoc κ α) : Assoc κ α :=
  d.foldl (fun sorted p => putSorted lt sorted p.1 p.2) []

-- ======================================= one equation per operation

@[simp] theorem get?_nil (k : κ) : get? ([] : Assoc κ α) k = none := rfl

theorem get?_put (d : Assoc κ α) (k j : κ) (v : α) :
    (d.put k v).get? j = if k = j then some v else d.get? j := by
  induction d with
  | nil => rfl
  | cons p rest ih =>
    obtain ⟨i, w⟩ := p
    by_cases hik : i = k
    · subst hik
      by_cases hij : i = j <;> simp [put, get?, hij]
    · by_cases hij : i = j
      · subst hij
        simp [put, get?, hik, Ne.symm hik]
      · simp [put, get?, hik, hij, ih]

theorem get?_putSorted (lt : κ → κ → Bool) (d : Assoc κ α) (k j : κ) (v : α) :
    (putSorted lt d k v).get? j = if k = j then some v else d.get? j := by
  induction d with
  | nil => rfl
  | cons p rest ih =>
    obtain ⟨i, w⟩ := p
    by_cases hik : i = k
    · subst hik
      by_cases hij : i = j <;> simp [putSorted, get?, hij]
    · by_cases hlt : lt k i = true
      · simp [putSorted, get?, hik, hlt]
      · by_cases hij : i = j
        · subst hij
          simp [putSorted, get?, hik, hlt, Ne.symm hik]
        · simp [putSorted, get?, hik, hlt, hij, ih]

theorem get?_erase (d : Assoc κ α) (k j : κ) :
    (d.erase k).get? j = if k = j then none else d.get? j := by
  induction d with
  | nil => by_cases h : k = j <;> simp [erase, h]
  | cons p rest ih =>
    obtain ⟨i, w⟩ := p
    by_cases hik : i = k
    · subst hik
      by_cases hij : i = j
      · subst hij
        simp [erase, ih]
      · simp [erase, get?, hij, ih]
    · by_cases hij : i = j
      · subst hij
        simp [erase, get?, hik, Ne.symm hik]
      · simp [erase, get?, hik, hij, ih]

/-- What a look-up answers is stored. -/
theorem mem_of_get?_eq_some {d : Assoc κ α} {k : κ} {v : α} (h : d.get? k = some v) :
    (k, v) ∈ d := by
  induction d with
  | nil => cases h
  | cons p rest ih =>
    obtain ⟨i, w⟩ := p
    by_cases hik : i = k
    · simp only [get?, hik, if_true, Option.some.injEq] at h
      rw [hik, h]
      exact List.mem_cons_self ..
    · simp only [get?, hik, if_false] at h
      exact List.mem_cons_of_mem _ (ih h)

/-- A pair of the dictionary after `put` is the new one or was there. -/
theorem mem_of_mem_put {d : Assoc κ α} {k : κ} {v : α} {p : κ × α} (h : p ∈ d.put k v) :
    p = (k, v) ∨ p ∈ d := by
  induction d with
  | nil => exact .inl (List.mem_singleton.1 h)
  | cons q rest ih =>
    obtain ⟨i, w⟩ := q
    rw [put] at h
    split at h
    · rcases List.mem_cons.1 h with h | h
      · exact .inl h
      · exact .inr (List.mem_cons_of_mem _ h)
    · rcases List.mem_cons.1 h with h | h
      · exact .inr (h ▸ List.mem_cons_self ..)
      · exact (ih h).imp id (List.mem_cons_of_mem _)

theorem mem_of_mem_putSorted {lt : κ → κ → Bool} {d : Assoc κ α} {k : κ} {v : α} {p : κ × α}
    (h : p ∈ putSorted lt d k v) : p = (k, v) ∨ p ∈ d := by
  induction d with
  | nil => exact .inl (List.mem_singleton.1 h)
  | cons q rest ih =>
    obtain ⟨i, w⟩ := q
    rw [putSorted] at h
    split at h
    · rcases List.mem_cons.1 h with h | h
      · exact .inl h
      · exact .inr (List.mem_cons_of_mem _ h)
    · split at h
      · exact List.mem_cons.1 h
      · rcases List.mem_cons.1 h with h | h
        · exact .inr (h ▸ List.mem_cons_self ..)
        · exact (ih h).imp id (List.mem_cons_of_mem _)

theorem erase_sublist (d : Assoc κ α) (k : κ) : (d.erase k).Sublist d := by
  induction d with
  | nil => exact List.Sublist.refl _
  | cons q rest ih =>
    rw [erase]
    split
    · exact ih.cons _
    · exact ih.cons_cons _

theorem erase_distinct {d : Assoc κ α} (h : d.Distinct) (k : κ) : (d.erase k).Distinct :=
  ((erase_sublist d k).map Prod.fst).nodup h

/-- While no key occurs twice, a look-up answers what is stored. -/
theorem get?_of_mem {d : Assoc κ α} (h : d.Distinct) {p : κ × α} (hp : p ∈ d) :
    d.get? p.1 = some p.2 := by
  induction d with
  | nil => cases hp
  | cons q rest ih =>
    obtain ⟨hq, hrest⟩ := List.nodup_cons.1 h
    rw [get?]
    rcases List.mem_cons.1 hp with rfl | hp
    · exact if_pos rfl
    · rw [if_neg]
      · exact ih hrest hp
      · intro heq
        exact hq (heq ▸ List.mem_map_of_mem hp)

theorem mem_keys_iff_has {d : Assoc κ α} {k : κ} : k ∈ d.keys ↔ d.has k = true := by
  induction d with
  | nil => simp [keys, has]
  | cons p rest ih =>
    obtain ⟨i, w⟩ := p
    by_cases h : i = k
    · simp [keys, has, get?, h]
    · have hki : ¬ k = i := fun e => h e.symm
      simpa [keys, has, get?, h, hki] using ih

/-- A key that is there keeps its place; a new one comes last. -/
theorem keys_put (d : Assoc κ α) (k : κ) (v : α) :
    (d.put k v).keys = if d.has k then d.keys else d.keys ++ [k] := by
  induction d with
  | nil => rfl
  | cons p rest ih =>
    obtain ⟨i, w⟩ := p
    by_cases h : i = k
    · subst h
      simp [put, keys, has, get?]
    · simp only [keys, has] at ih
      by_cases hk : (get? rest k).isSome <;> simp [put, keys, has, get?, h, hk, ih]

theorem put_distinct {d : Assoc κ α} (h : d.Distinct) (k : κ) (v : α) :
    (d.put k v).Distinct := by
  unfold Distinct at *
  rw [keys_put]
  split
  · exact h
  · rename_i hk
    refine List.nodup_append.2 ⟨h, by simp, fun a ha b hb e => hk ?_⟩
    obtain rfl : b = k := by simpa using hb
    exact mem_keys_iff_has.1 (e ▸ ha)

theorem ofPairs_distinct (pairs : List (κ × α)) : (ofPairs pairs).Distinct := by
  have key : ∀ (d : Assoc κ α), d.Distinct →
      (pairs.foldl (fun d p => d.put p.1 p.2) d).Distinct := by
    induction pairs with
    | nil => exact fun _ h => h
    | cons p rest ih => exact fun d h => ih _ (put_distinct h p.1 p.2)
  exact key [] (by simp [Distinct, keys])

/-- A pair is stored if and only if a look-up of its key answers it. -/
theorem mem_iff_get? {d : Assoc κ α} (h : d.Distinct) {p : κ × α} :
    p ∈ d ↔ d.get? p.1 = some p.2 :=
  ⟨get?_of_mem h, mem_of_get?_eq_some⟩

-- ============================================================ key order

/-- What an order of keys has to be for sorted dictionaries. -/
structure StrictOrder (lt : κ → κ → Bool) : Prop where
  irrefl : ∀ a, lt a a = false
  trans : ∀ a b c, lt a b = true → lt b c = true → lt a c = true
  total : ∀ a b, a ≠ b → lt a b = false → lt b a = true

variable {lt : κ → κ → Bool}

omit [DecidableEq κ] in
theorem Sorted.distinct (hlt : StrictOrder lt) {d : Assoc κ α} (h : d.Sorted lt) :
    d.Distinct := by
  refine List.Pairwise.imp ?_ h
  intro a b hab heq
  rw [heq, hlt.irrefl] at hab
  cases hab

/-- The keys settle the order in which they stand. -/
theorem keys_eq_of_has (hlt : StrictOrder lt) {α β : Type} {d : Assoc κ α} {e : Assoc κ β}
    (hd : d.Sorted lt) (he : e.Sorted lt) (h : ∀ k, d.has k = e.has k) : d.keys = e.keys := by
  have hperm : d.keys.Perm e.keys := by
    refine (List.perm_ext_iff_of_nodup (hd.distinct hlt) (he.distinct hlt)).2 fun k => ?_
    rw [mem_keys_iff_has, mem_keys_iff_has, h]
  refine hperm.eq_of_pairwise (fun a b _ _ hab hba => ?_) hd he
  have haa := hlt.trans a b a hab hba
  rw [hlt.irrefl] at haa
  cases haa

/-- Storing in order keeps the keys in order. -/
theorem putSorted_sorted (hlt : StrictOrder lt) {d : Assoc κ α} (h : d.Sorted lt) (k : κ)
    (v : α) : (putSorted lt d k v).Sorted lt := by
  induction d with
  | nil => exact List.pairwise_singleton _ _
  | cons q rest ih =>
    obtain ⟨j, w⟩ := q
    obtain ⟨hj, hrest⟩ := List.pairwise_cons.1 h
    rw [putSorted]
    split
    · rename_i hjk
      exact hjk ▸ h
    · rename_i hjk
      split
      · rename_i hkj
        refine List.pairwise_cons.2 ⟨?_, h⟩
        intro a ha
        rcases List.mem_cons.1 ha with rfl | ha
        · exact hkj
        · exact hlt.trans _ _ _ hkj (hj a ha)
      · rename_i hkj
        refine List.pairwise_cons.2 ⟨?_, ih hrest⟩
        intro a ha
        obtain ⟨p, hp, rfl⟩ := List.mem_map.1 ha
        rcases mem_of_mem_putSorted hp with rfl | hp
        · exact hlt.total k j (Ne.symm hjk) (Bool.eq_false_iff.2 hkj)
        · exact hj p.1 (List.mem_map_of_mem hp)

/-- Storing in order puts a value under its key, and leaves the others. -/
theorem mem_putSorted_iff (hlt : StrictOrder lt) {d : Assoc κ α} (h : d.Sorted lt) {k j : κ}
    {v w : α} :
    (j, w) ∈ putSorted lt d k v ↔ if j = k then v = w else (j, w) ∈ d := by
  rw [mem_iff_get? ((putSorted_sorted hlt h k v).distinct hlt), get?_putSorted,
    mem_iff_get? (h.distinct hlt)]
  by_cases hjk : j = k
  · simp [hjk]
  · simp [hjk, Ne.symm hjk]

end Assoc

end ScopeRules
