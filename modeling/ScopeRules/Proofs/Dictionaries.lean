/-
Dictionaries whose values are replaced, dictionaries that grow by new keys,
and dictionaries that are sorted. Replacing every value goes with every
operation on a dictionary, since keys alone decide where a value goes; new
keys come last, in the order in which they are stored; and sorting puts the
keys in order and keeps every pair, as long as no key occurs twice. A key that
occurs once is all that a look-up finds. Of many pairs that are stored one
after the other, the first with a key settles the place of the key, and the
last with it the value.
-/
import Mathlib.Data.List.Induction
import Mathlib.Order.Lattice
import ScopeRules.Assoc

namespace ScopeRules

namespace Assoc

variable {κ α β : Type} [DecidableEq κ] {lt : κ → κ → Bool}

instance (d : Assoc κ α) : Decidable d.Distinct := inferInstanceAs (Decidable d.keys.Nodup)

-- ==================================================== replaced values

theorem get?_map (f : κ × α → β) (d : Assoc κ α) (k : κ) :
    get? (d.map fun p => (p.1, f p)) k = (get? d k).map fun v => f (k, v) := by
  induction d with
  | nil => rfl
  | cons p rest ih =>
    obtain ⟨j, w⟩ := p
    by_cases hjk : j = k
    · subst hjk
      simp [get?]
    · simpa [get?, hjk] using ih

theorem has_map (f : κ × α → β) (d : Assoc κ α) (k : κ) :
    has (d.map fun p => (p.1, f p)) k = has d k := by
  rw [has, has, get?_map, Option.isSome_map]

theorem map_put (f : κ × α → β) (d : Assoc κ α) (k : κ) (v : α) :
    (put d k v).map (fun p => (p.1, f p)) = put (d.map fun p => (p.1, f p)) k (f (k, v)) := by
  induction d with
  | nil => rfl
  | cons p rest ih =>
    obtain ⟨j, w⟩ := p
    simp only [put, List.map_cons]
    split
    · rfl
    · rw [List.map_cons, ih]

theorem map_putSorted (f : κ × α → β) (d : Assoc κ α) (k : κ) (v : α) :
    (putSorted lt d k v).map (fun p => (p.1, f p))
      = putSorted lt (d.map fun p => (p.1, f p)) k (f (k, v)) := by
  induction d with
  | nil => rfl
  | cons p rest ih =>
    obtain ⟨j, w⟩ := p
    simp only [putSorted, List.map_cons]
    split
    · rfl
    · split
      · rfl
      · rw [List.map_cons, ih]

/-- The values can be replaced before sorting or after it. -/
theorem sorted_map (f : κ × α → β) (d : Assoc κ α) :
    sorted lt (d.map fun p => (p.1, f p)) = (sorted lt d).map fun p => (p.1, f p) := by
  have key : ∀ (acc : Assoc κ α),
      (d.map fun p => (p.1, f p)).foldl (fun sorted p => putSorted lt sorted p.1 p.2)
          (acc.map fun p => (p.1, f p))
        = (d.foldl (fun sorted p => putSorted lt sorted p.1 p.2) acc).map
            fun p => (p.1, f p) := by
    induction d with
    | nil => exact fun _ => rfl
    | cons p rest ih =>
      intro acc
      rw [List.map_cons, List.foldl_cons, List.foldl_cons, ← ih, map_putSorted]
  exact key []

-- ============================================================ one key

/-- While no key occurs twice, the pairs with a key are what a look-up of it
answers. -/
theorem filter_key_eq {d : Assoc κ α} (h : d.Distinct) (k : κ) :
    (d.filter fun p => p.1 = k) = ((d.get? k).map fun v => (k, v)).toList := by
  induction d with
  | nil => rfl
  | cons p rest ih =>
    obtain ⟨j, w⟩ := p
    obtain ⟨hj, hrest⟩ := List.nodup_cons.1 h
    by_cases hjk : j = k
    · subst hjk
      have hnone : (rest.filter fun p => p.1 = j) = [] :=
        List.filter_eq_nil_iff.2 fun p hp hpj =>
          hj (List.mem_map.2 ⟨p, hp, of_decide_eq_true hpj⟩)
      simp [get?, hnone]
    · simpa [get?, hjk] using ih hrest

/-- While no key occurs twice, a dictionary whose values are replaced or
dropped answers with what became of the value. -/
theorem get?_filterMap {d : Assoc κ α} (h : d.Distinct) (f : κ → α → Option β) (k : κ) :
    get? (d.filterMap fun p => (f p.1 p.2).map fun v => (p.1, v)) k = (get? d k).bind (f k) := by
  induction d with
  | nil => rfl
  | cons p rest ih =>
    obtain ⟨j, w⟩ := p
    obtain ⟨hj, hrest⟩ := List.nodup_cons.1 h
    rw [List.filterMap_cons]
    by_cases hjk : j = k
    · subst hjk
      have hnone : get? rest j = none := by
        rw [← Option.not_isSome_iff_eq_none]
        exact fun hhas => hj (mem_keys_iff_has.2 hhas)
      cases hw : f j w with
      | none => simpa [get?, hw, hnone] using ih hrest
      | some v => simp [get?, hw]
    · cases hw : f j w with
      | none => simpa [get?, hjk] using ih hrest
      | some v => simpa [get?, hjk] using ih hrest

-- =========================================================== new keys

/-- A key that is not there comes last. -/
theorem put_of_not_mem {d : Assoc κ α} {k : κ} (h : k ∉ d.keys) (v : α) :
    d.put k v = d ++ [(k, v)] := by
  induction d with
  | nil => rfl
  | cons p rest ih =>
    obtain ⟨j, w⟩ := p
    simp only [keys, List.map_cons, List.mem_cons, not_or] at h
    obtain ⟨hj, hrest⟩ := h
    rw [put, if_neg (Ne.symm hj), ih hrest]
    rfl

/-- Pairs with keys of their own are stored one behind the other. -/
theorem foldl_put_eq_append {pairs : List (κ × α)} {d : Assoc κ α} (h : (d ++ pairs).Distinct) :
    pairs.foldl (fun d p => d.put p.1 p.2) d = d ++ pairs := by
  induction pairs generalizing d with
  | nil => exact (List.append_nil _).symm
  | cons p rest ih =>
    have hnew : p.1 ∉ d.keys := by
      intro hmem
      have hkeys : (d.keys ++ keys (p :: rest)).Nodup := by simpa [Distinct, keys] using h
      exact (List.nodup_append.1 hkeys).2.2 p.1 hmem p.1 (.head _) rfl
    have hnext : d ++ p :: rest = (d ++ [p]) ++ rest := by simp
    rw [List.foldl_cons, put_of_not_mem hnew, hnext]
    exact ih (hnext ▸ h)

/-- A value under a key that is there takes the place of the one before. -/
theorem put_of_mem {d : Assoc κ α} (hd : d.Distinct) {k : κ} (h : k ∈ d.keys) (v : α) :
    d.put k v = d.map fun p => if p.1 = k then (k, v) else p := by
  induction d with
  | nil => cases h
  | cons p rest ih =>
    obtain ⟨j, w⟩ := p
    obtain ⟨hj, hrest⟩ := List.nodup_cons.1 hd
    rw [put, List.map_cons]
    by_cases hjk : j = k
    · subst hjk
      have hothers : rest.map (fun p => if p.1 = j then (j, v) else p) = rest := by
        refine (List.map_congr_left fun p hp => if_neg fun hpj => hj ?_).trans (List.map_id _)
        exact List.mem_map.2 ⟨p, hp, hpj⟩
      rw [if_pos rfl, if_pos rfl, hothers]
    · have hmem : k ∈ keys rest := (List.mem_cons.1 h).resolve_left (Ne.symm hjk)
      rw [if_neg hjk, if_neg hjk, ih hrest hmem]

-- ==================================================== one after the other

/-- The value of the last pair with the key `k`. -/
def last? (pairs : List (κ × α)) (k : κ) : Option α :=
  (pairs.filter fun p => p.1 = k).getLast?.map Prod.snd

theorem last?_append_singleton (pairs : List (κ × α)) (p : κ × α) (k : κ) :
    last? (pairs ++ [p]) k = if p.1 = k then some p.2 else last? pairs k := by
  unfold last?
  by_cases hpk : p.1 = k <;> simp [hpk]

/-- However a pair is stored, if it changes the answer for its own key only,
then many pairs leave for each key the answer of the last one with it. -/
theorem get?_foldl_store (store : Assoc κ α → κ → β → Assoc κ α) {answer : β → Option α}
    (hstore : ∀ d k v j, get? (store d k v) j = if k = j then answer v else get? d j)
    (pairs : List (κ × β)) (d : Assoc κ α) (k : κ) :
    get? (pairs.foldl (fun d p => store d p.1 p.2) d) k
      = ((last? pairs k).map answer).getD (get? d k) := by
  induction pairs using List.reverseRecOn with
  | nil => rfl
  | append_singleton pairs p ih =>
    rw [List.foldl_append, List.foldl_cons, List.foldl_nil, hstore, ih, last?_append_singleton]
    by_cases hpk : p.1 = k <;> simp [hpk]

/-- The last pair with a key settles the value. -/
theorem get?_ofPairs (pairs : List (κ × α)) (k : κ) : get? (ofPairs pairs) k = last? pairs k := by
  rw [ofPairs, get?_foldl_store put fun d k v j => get?_put d k j v]
  cases last? pairs k <;> rfl

theorem ofPairs_append_singleton (pairs : List (κ × α)) (p : κ × α) :
    ofPairs (pairs ++ [p]) = (ofPairs pairs).put p.1 p.2 := List.foldl_append

/-- The first pair with a key settles its place. -/
theorem keys_ofPairs (pairs : List (κ × α)) :
    (ofPairs pairs).keys = (pairs.map Prod.fst).eraseDups := by
  induction pairs using List.reverseRecOn with
  | nil => rfl
  | append_singleton pairs p ih =>
    have hmem : p.1 ∈ (ofPairs pairs).keys ↔ p.1 ∈ pairs.map Prod.fst := by
      rw [ih, List.mem_eraseDups]
    rw [ofPairs_append_singleton, keys_put, List.map_append, List.eraseDups_append, ih]
    by_cases hp : p.1 ∈ pairs.map Prod.fst
    · rw [if_pos (mem_keys_iff_has.1 (hmem.2 hp))]
      simp [List.removeAll, hp]
    · rw [if_neg fun hhas => hp (hmem.1 (mem_keys_iff_has.2 hhas))]
      simp [List.removeAll, hp, List.eraseDups_cons]

-- ============================================================ sorting

omit [DecidableEq κ] in
/-- The keys of a linear order can be sorted. -/
theorem strictOrder_of_lt [LinearOrder κ] (h : ∀ a b, lt a b = true ↔ a < b) :
    StrictOrder lt where
  irrefl := by
    intro a
    rw [Bool.eq_false_iff]
    exact fun haa => lt_irrefl a ((h a a).1 haa)
  trans := by
    intro a b c hab hbc
    exact (h a c).2 (lt_trans ((h a b).1 hab) ((h b c).1 hbc))
  total := by
    intro a b hne hab
    have hlt : ¬ a < b := fun hlt => Bool.eq_false_iff.1 hab ((h a b).2 hlt)
    exact (h b a).2 (lt_of_le_of_ne (not_lt.1 hlt) (Ne.symm hne))

/-- Sorting makes the keys increase. -/
theorem sorted_sorted (hlt : StrictOrder lt) (d : Assoc κ α) : (sorted lt d).Sorted lt := by
  have key : ∀ (acc : Assoc κ α), acc.Sorted lt →
      (d.foldl (fun sorted p => putSorted lt sorted p.1 p.2) acc).Sorted lt := by
    induction d with
    | nil => exact fun _ h => h
    | cons p rest ih => exact fun acc h => ih _ (putSorted_sorted hlt h p.1 p.2)
  exact key [] List.Pairwise.nil

/-- Sorting keeps every pair, as no key occurs twice. -/
theorem mem_sorted_iff (hlt : StrictOrder lt) {d : Assoc κ α} (h : d.Distinct) {p : κ × α} :
    p ∈ sorted lt d ↔ p ∈ d := by
  have key : ∀ (acc : Assoc κ α), acc.Sorted lt →
      (p ∈ d.foldl (fun sorted p => putSorted lt sorted p.1 p.2) acc
        ↔ p ∈ d ∨ (p.1 ∉ d.keys ∧ p ∈ acc)) := by
    induction d with
    | nil => simp [keys]
    | cons q rest ih =>
      intro acc hacc
      obtain ⟨hq, hrest⟩ := List.nodup_cons.1 h
      obtain ⟨j, w⟩ := q
      obtain ⟨k, v⟩ := p
      rw [List.foldl_cons, ih hrest _ (putSorted_sorted hlt hacc j w),
        mem_putSorted_iff hlt hacc]
      by_cases hkj : k = j
      · subst hkj
        have hnone : ∀ x, (k, x) ∉ rest := fun x hx => hq (List.mem_map.2 ⟨(k, x), hx, rfl⟩)
        simp [keys, hnone, eq_comm]
      · simp [hkj, keys]
  rw [sorted, key [] List.Pairwise.nil]
  simp

/-- Sorting changes no answer. -/
theorem get?_sorted (hlt : StrictOrder lt) {d : Assoc κ α} (h : d.Distinct) (k : κ) :
    (sorted lt d).get? k = d.get? k := by
  refine Option.ext fun v => ?_
  show (sorted lt d).get? (k, v).1 = some (k, v).2 ↔ d.get? (k, v).1 = some (k, v).2
  rw [← mem_iff_get? ((sorted_sorted hlt d).distinct hlt), mem_sorted_iff hlt h, mem_iff_get? h]

/-- Dictionaries in key order are settled by their answers. -/
theorem eq_of_get?_eq (hlt : StrictOrder lt) {d e : Assoc κ α} (hd : d.Sorted lt)
    (he : e.Sorted lt) (h : ∀ k, d.get? k = e.get? k) : d = e := by
  have hkeys : d.keys = e.keys := keys_eq_of_has hlt hd he fun k => by rw [has, has, h]
  have hvalues : ∀ p ∈ d, ∀ q ∈ e, p.1 = q.1 → p = q := by
    intro p hp q hq hpq
    have hget := get?_of_mem (hd.distinct hlt) hp
    rw [hpq, h, get?_of_mem (he.distinct hlt) hq] at hget
    exact Prod.ext hpq (Option.some.inj hget).symm
  refine List.ext_getElem (by simpa [keys] using congrArg List.length hkeys) fun i hi hi' => ?_
  refine hvalues _ (List.getElem_mem hi) _ (List.getElem_mem hi') ?_
  simpa [keys, hi, hi'] using congrArg (fun ks => ks[i]?) hkeys

/-- Sorted, two dictionaries are one if and only if they answer alike. -/
theorem sorted_eq_sorted_iff (hlt : StrictOrder lt) {d e : Assoc κ α} (hd : d.Distinct)
    (he : e.Distinct) : sorted lt d = sorted lt e ↔ ∀ k, d.get? k = e.get? k := by
  refine ⟨fun h k => ?_, fun h => ?_⟩
  · rw [← get?_sorted hlt hd, h, get?_sorted hlt he]
  · refine eq_of_get?_eq hlt (sorted_sorted hlt d) (sorted_sorted hlt e) fun k => ?_
    rw [get?_sorted hlt hd, get?_sorted hlt he, h]

end Assoc

end ScopeRules
