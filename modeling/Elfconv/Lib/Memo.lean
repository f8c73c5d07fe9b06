/-
Elfconv/Lib/Memo.lean

Maps filled by assignment, and a memo table in front of a map.

A map is a partial function.  `assign` is `m[k] = v`; `ofPairs` fills a map from a list of
pairs, so that later pairs win.  In a map to pointers a key may be present with the null
pointer: `deref` reads through both, and `touch` is the insertion of a null pointer that
`m[k]` makes when `k` is absent.

`lookup` asks the memo table first, then the map, and notes what it found.  The memo is
`Faithful` when it holds nothing the map does not hold; then a lookup answers what the map
holds, and leaves the memo faithful and the map as it reads.
-/
import Mathlib.Tactic.Common
import Mathlib.Data.List.Induction

namespace Memo

universe u v

variable {κ : Type u} {ν : Type v} [DecidableEq κ]

/-- A map whose keys may hold the null pointer. -/
abbrev PtrMap (κ : Type u) (ν : Type v) := κ → Option (Option ν)

/-- The key has the value from now on. -/
def assign (m : κ → Option ν) (k : κ) (v : ν) : κ → Option ν :=
  fun k' => if k' = k then some v else m k'

/-- The map filled from `pairs`, in order. -/
def ofPairs (pairs : List (κ × ν)) : κ → Option ν :=
  pairs.foldl (fun m p => assign m p.1 p.2) fun _ => none

/-! ### Filling a map -/

/-- Entries for other keys leave the value of a key. -/
theorem foldl_assign_of_notMem {k : κ} : ∀ {pairs : List (κ × ν)} {m : κ → Option ν},
    k ∉ pairs.map Prod.fst → pairs.foldl (fun m p => assign m p.1 p.2) m k = m k
  | [], _, _ => rfl
  | p :: pairs, m, h => by
      rw [List.map_cons, List.mem_cons, not_or] at h
      rw [List.foldl_cons, foldl_assign_of_notMem h.2, assign, if_neg h.1]

/-- The last pair of a key wins. -/
theorem ofPairs_append_cons {k : κ} {v : ν} {before after : List (κ × ν)}
    (h : k ∉ after.map Prod.fst) : ofPairs (before ++ (k, v) :: after) k = some v := by
  rw [ofPairs, List.foldl_append, List.foldl_cons, foldl_assign_of_notMem h, assign, if_pos rfl]

/-- A map filled with `f k` for every `k` of a list. -/
theorem ofPairs_graph (f : κ → ν) {k : κ} (keys : List κ) {after : List (κ × ν)}
    (h : k ∉ after.map Prod.fst) :
    ofPairs (keys.map (fun k => (k, f k)) ++ after) k = if k ∈ keys then some (f k) else none := by
  rw [ofPairs, List.foldl_append, foldl_assign_of_notMem h]
  induction keys using List.reverseRecOn with
  | nil => simp
  | append_singleton keys a ih =>
      rw [List.map_append, List.foldl_append, List.map_singleton, List.foldl_cons,
        List.foldl_nil, assign, ih]
      by_cases hk : k = a
      · simp [hk]
      · simp [hk]

/-! ### Reading a map to pointers -/

/-- The pointer at `k`, null where `k` is absent. -/
def deref (m : PtrMap κ ν) (k : κ) : Option ν := (m k).join

/-- The insertion made by `m[k]`. -/
def touch (m : PtrMap κ ν) (k : κ) : PtrMap κ ν :=
  match m k with
  | some _ => m
  | none => assign m k none

/-- `m.insert({k, v})`, which leaves a key that is present alone. -/
def insert (m : PtrMap κ ν) (k : κ) (v : ν) : PtrMap κ ν :=
  match m k with
  | some _ => m
  | none => assign m k (some v)

/-- An entry without a value is no value. -/
@[simp] theorem deref_touch (m : PtrMap κ ν) (k : κ) : deref (touch m k) = deref m := by
  funext k'
  unfold touch
  split
  · rfl
  · rename_i h
    by_cases hk : k' = k
    · simp [deref, assign, hk, h]
    · simp [deref, assign, hk]

/-- `insert` changes nothing where the key has an entry already. -/
theorem deref_insert (m : PtrMap κ ν) (k : κ) (v : ν) :
    deref (insert m k v) = deref m ∨ deref (insert m k v) = assign (deref m) k v := by
  unfold insert
  split
  · exact .inl rfl
  · refine .inr (funext fun k' => ?_)
    by_cases hk : k' = k
    · simp [deref, assign, hk]
    · simp [deref, assign, hk]

/-! ### The memo table -/

/-- Everything the memo holds, the table holds. -/
def Faithful (memo table : PtrMap κ ν) : Prop :=
  ∀ k v, deref memo k = some v → deref table k = some v

/-- The result of a lookup, with the memo and the table after it. -/
structure Looked (κ : Type u) (ν : Type v) where
  found : Option ν
  memo : PtrMap κ ν
  table : PtrMap κ ν

/-- The memo is asked first, and then the table, whose answer is kept. -/
def lookup (memo table : PtrMap κ ν) (k : κ) : Looked κ ν :=
  match deref memo k with
  | some v => ⟨some v, touch memo k, table⟩
  | none =>
      match deref table k with
      | some v => ⟨some v, insert (touch memo k) k v, touch table k⟩
      | none => ⟨none, touch memo k, touch table k⟩

variable {memo table : PtrMap κ ν}

omit [DecidableEq κ] in
/-- A memo without entries is faithful. -/
theorem faithful_empty : Faithful (fun _ => none) table := by
  intro k v h
  cases h

/-- **A lookup answers what the table holds**, whatever was looked up before. -/
theorem found_lookup (h : Faithful memo table) (k : κ) :
    (lookup memo table k).found = deref table k := by
  unfold lookup
  split
  · rename_i v hv
    exact (h k v hv).symm
  · split
    · rename_i v hv
      exact hv.symm
    · rename_i hv
      exact hv.symm

/-- A lookup does not change what the table reads as. -/
theorem deref_table_lookup (memo table : PtrMap κ ν) (k : κ) :
    deref (lookup memo table k).table = deref table := by
  unfold lookup
  split
  · rfl
  · split
    · exact deref_touch table k
    · exact deref_touch table k

/-- A lookup that finds something leaves the table as it is. -/
theorem table_lookup_of_found {k : κ} {v : ν} (h : (lookup memo table k).found = some v) :
    (lookup memo table k).table = table := by
  revert h
  unfold lookup
  split
  · exact fun _ => rfl
  · split
    · rename_i w hw
      intro _
      have : table k = some (some w) := by
        rcases e : table k with - | x
        · simp [deref, e] at hw
        · simpa [deref, e] using hw
      simp only [touch, this]
    · intro h
      cases h

/-- A lookup leaves the memo faithful to the table. -/
theorem faithful_lookup (h : Faithful memo table) (k : κ) :
    Faithful (lookup memo table k).memo (lookup memo table k).table := by
  intro k' v hv
  rw [deref_table_lookup]
  revert hv
  unfold lookup
  split
  · rw [deref_touch]
    exact h k' v
  · split
    · rename_i w hw
      intro hv
      rcases deref_insert (touch memo k) k w with e | e
      · rw [e, deref_touch] at hv
        exact h k' v hv
      · rw [e, deref_touch, assign] at hv
        split at hv
        · rename_i hk
          rw [hk, hw, hv]
        · exact h k' v hv
    · rw [deref_touch]
      exact h k' v

end Memo
