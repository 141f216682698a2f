import OsAssignments.Paging.HashTable

/-!
# Sequences of calls on the hash table

* `TableCall` — a call of `hashTableSet`, `hashTableGet` or `hashTableRemove`; `runTable` makes the
  calls one after the other, `runMap` answers them from a map.
* `HashTable.Repr.call` — one call answers as the map does, and stores the changed map.
* `roomy_of_unsigned` — of the values of an `unsigned`, no more than half belong into one of two or
  more buckets.
* `hashTable_finite_map` — every sequence of calls on a new table answers as the empty map, as long
  as a table with a single bucket does not hold more than `2 ^ 31` keys.
* `hashTable_no_map` — the modulus is the number of buckets cast to `int`, and a bucket is searched
  with an `int`.
-/

namespace OsAssignments
namespace Paging

open MachineWord

/-! ## Calls -/

/-- A call with a table. -/
inductive TableCall (α : Type) where
  | set (key : Nat) (value : α)
  | get (key : Nat)
  | remove (key : Nat)

/-- The key of a call. -/
def TableCall.key {α : Type} : TableCall α → Nat
  | .set key _ => key
  | .get key => key
  | .remove key => key

section

variable {α : Type}

/-- What a map answers: what the key is bound to. -/
def TableCall.answer (f : Nat → Option α) : TableCall α → Option α
  | .set key _ => f key
  | .get key => f key
  | .remove key => f key

/-- The map after the call. -/
def TableCall.after (f : Nat → Option α) : TableCall α → Nat → Option α
  | .set key value => Function.update f key (some value)
  | .get _ => f
  | .remove key => Function.update f key none

/-- The answers of a map to a sequence of calls. -/
def runMap : (Nat → Option α) → List (TableCall α) → List (Option α)
  | _, [] => []
  | f, call :: calls => call.answer f :: runMap (call.after f) calls

/-- The map a sequence of calls leaves of the empty one. -/
def mapAfter (calls : List (TableCall α)) : Nat → Option α :=
  calls.foldl (fun f call => call.after f) fun _ => none

variable [DecidableEq α]

/-- The call itself, with the value it returns. -/
def TableCall.run (table : HashTable α) : TableCall α → Except Fault (Option α × HashTable α)
  | .set key value => hashTableSet table key value
  | .get key => do
    let value ← hashTableGet table key
    pure (value, table)
  | .remove key => hashTableRemove table key

/-- A sequence of calls. -/
def runTable : HashTable α → List (TableCall α) → Except Fault (List (Option α) × HashTable α)
  | table, [] => .ok ([], table)
  | table, call :: calls => do
    let (value, table) ← call.run table
    let (values, table) ← runTable table calls
    pure (value :: values, table)

/-! ## The table and the map -/

/-- One call. -/
theorem HashTable.Repr.call {table : HashTable α} {f : Nat → Option α} (h : table.Repr f)
    (call : TableCall α) (hroom : Roomy table.numBuckets (call.after f)) :
    ∃ table', call.run table = .ok (call.answer f, table') ∧ table'.Repr (call.after f) ∧
      table'.numBuckets = table.numBuckets := by
  cases call with
  | set key value => exact hashTableSet_ok h key value hroom
  | get key =>
    refine ⟨table, ?_, h, rfl⟩
    rw [TableCall.run, bind_of_ok (hashTableGet_ok h key)]
    rfl
  | remove key => exact hashTableRemove_ok h key

/-- A sequence of calls. -/
theorem HashTable.Repr.calls {n : Nat} (calls : List (TableCall α)) :
    ∀ {table : HashTable α} {f : Nat → Option α}, table.Repr f → table.numBuckets = n →
      (∀ past, past <+: calls → Roomy n (past.foldl (fun f call => call.after f) f)) →
      ∃ table', runTable table calls = .ok (runMap f calls, table') := by
  induction calls with
  | nil => exact fun _ _ _ => ⟨_, rfl⟩
  | cons call calls ih =>
    intro table f h hn hroom
    have hfirst : Roomy n (call.after f) := hroom [call] (by simp)
    obtain ⟨table₁, hrun, hrepr, hn₁⟩ := h.call call (hn ▸ hfirst)
    obtain ⟨table', hrest⟩ := ih hrepr (hn₁.trans hn) fun past hpast =>
      hroom (call :: past) ((List.prefix_cons_inj call).mpr hpast)
    refine ⟨table', ?_⟩
    rw [runTable, bind_of_ok hrun]
    exact bind_of_ok hrest

omit [DecidableEq α] in
/-- Two buckets or more share the `2 ^ 32` values of an `unsigned`. -/
theorem roomy_of_unsigned {n : Nat} (hn : 2 ≤ n) {f : Nat → Option α}
    (hf : ∀ k, f k ≠ none → k < 2 ^ 32) : Roomy n f := by
  intro h
  have hmaps : Set.MapsTo (fun k => k / n) {k | k % n = h ∧ f k ≠ none}
      (Finset.range (2 ^ 31) : Finset Nat) := by
    rintro k ⟨-, hk⟩
    have hle : k / n ≤ k / 2 := Nat.div_le_div_left hn (by decide)
    have hlt := hf k hk
    rw [Finset.coe_range, Set.mem_Iio]
    show k / n < 2 ^ 31
    omega
  have hinj : Set.InjOn (fun k => k / n) {k | k % n = h ∧ f k ≠ none} := by
    rintro k ⟨hk, -⟩ l ⟨hl, -⟩ hkl
    rw [← Nat.div_add_mod k n, ← Nat.div_add_mod l n, hk, hl]
    exact congrArg (fun q => n * q + h) hkl
  have hle := Set.encard_le_encard_of_injOn hmaps hinj
  rw [Set.encard_coe_eq_coe_finsetCard, Finset.card_range] at hle
  exact_mod_cast hle

omit [DecidableEq α] in
/-- What is bound was set. -/
theorem mapAfter_key {calls : List (TableCall α)} {n : Nat} (hkeys : ∀ call ∈ calls, call.key < n)
    {k : Nat} (hk : mapAfter calls k ≠ none) : k < n := by
  induction calls using List.reverseRecOn with
  | nil => exact absurd rfl hk
  | append_singleton calls call ih =>
    have hbefore := ih fun call hcall => hkeys call (List.mem_append_left _ hcall)
    rw [mapAfter, List.foldl_concat] at hk
    by_cases hkey : k = call.key
    · rw [hkey]
      exact hkeys call (List.mem_append_right _ (List.mem_singleton_self call))
    · refine hbefore ?_
      cases call with
      | set key value =>
        rw [TableCall.after, Function.update_of_ne (show k ≠ key from hkey)] at hk
        exact hk
      | get key => exact hk
      | remove key =>
        rw [TableCall.after, Function.update_of_ne (show k ≠ key from hkey)] at hk
        exact hk

/-- **A new hash table is the empty map**: every sequence of calls gets the answers of the map,
whatever keys collide. -/
theorem hashTable_finite_map (numBuckets : Nat) (hpos : 1 ≤ numBuckets)
    (hint : numBuckets < 2 ^ 31) (calls : List (TableCall α))
    (hkeys : ∀ call ∈ calls, call.key < 2 ^ 32)
    (hone : numBuckets = 1 → ∀ past, past <+: calls →
      {k | mapAfter past k ≠ none}.encard ≤ 2 ^ 31) :
    ∃ table, runTable (makeHashTable numBuckets) calls
      = .ok (runMap (fun _ => none) calls, table) := by
  refine (repr_makeHashTable hpos hint).calls calls rfl fun past hpast => ?_
  rcases Nat.lt_or_ge 1 numBuckets with hmany | hsingle
  · refine roomy_of_unsigned hmany fun k hk => ?_
    exact mapAfter_key (fun call hcall => hkeys call (hpast.subset hcall)) hk
  · exact fun h => (Set.encard_le_encard fun k hk => hk.2).trans (hone (by omega) past hpast)

end

theorem hashTable_finite_map_example :
    ∃ table, runTable (makeHashTable 2) [.set 1 10, .set 3 30, .remove 1, .get 3, .set 3 31]
      = .ok ([none, none, some 10, some 30, some 30], table) :=
  hashTable_finite_map 2 (by decide) (by decide)
    [.set 1 10, .set 3 30, .remove 1, .get 3, .set 3 31] (by decide)
    (fun hone => absurd hone (by decide))

/-! ## Where it is no map -/

section

variable {table table' : HashTable Nat} {ps : List (KeyValuePair Nat)}

/-- A table of one bucket, which lists these pairs. -/
structure SingleBucket (table : HashTable Nat) (ps : List (KeyValuePair Nat)) : Prop where
  one : table.numBuckets = 1
  length : table.buckets.length = 1
  lists : ((table.buckets.getD 0 none).getD (makeList hashTableBucketSize)).Repr ps

theorem SingleBucket.bucket_ok (h : SingleBucket table ps) (key : Nat) :
    hashFunction table key = .ok (0 : Nat) ∧
      table.bucket (0 : Nat) = .ok (table.buckets.getD 0 none) := by
  have hproper : table.Proper := by
    refine ⟨?_, ?_, ?_⟩ <;> simp [h.one, h.length]
  have hhash := hproper.hashFunction_ok key
  rw [h.one, Nat.mod_one] at hhash
  exact ⟨hhash, hproper.bucket_ok (by rw [h.one]; decide)⟩

/-- A new key goes behind the others. -/
theorem SingleBucket.set (h : SingleBucket table ps) (hsmall : ps.length ≤ 2 ^ 31) {key : Nat}
    (hnew : ∀ q ∈ ps, q.key ≠ key) (value : Nat) :
    ∃ table', hashTableSet table key value = .ok (none, table') ∧
      SingleBucket table' (ps ++ [⟨key, value⟩]) := by
  obtain ⟨hhash, hbucket⟩ := h.bucket_ok key
  obtain ⟨bucket, happend, hrepr⟩ := listAppend_ok h.lists (fun _ => hsmall) ⟨key, value⟩
  have hfind : findMatchingPair ((table.buckets.getD 0 none).getD (makeList hashTableBucketSize)) key
      = .ok none := by
    rcases findMatchingPair_ok h.lists hsmall key with ⟨pre, p, post, rfl, hp, -⟩ | ⟨-, hfind⟩
    · exact absurd hp (hnew p (by simp))
    · exact hfind
  refine ⟨table.setBucket (0 : Nat) (some bucket), ?_, h.one, ?_, ?_⟩
  · rw [hashTableSet, bind_of_ok hhash, bind_of_ok hbucket, bind_of_ok hfind]
    exact bind_of_ok happend
  · simp [HashTable.setBucket, h.length]
  · have hget : (table.setBucket (0 : Nat) (some bucket)).buckets.getD 0 none = some bucket := by
      simp [HashTable.setBucket, h.length]
    rw [hget]
    exact hrepr

/-- The search stops after `2 ^ 31` pairs. -/
theorem SingleBucket.get_last {p : KeyValuePair Nat} (h : SingleBucket table (ps ++ [p]))
    (hlen : ps.length = 2 ^ 31) (hother : ∀ q ∈ ps, q.key ≠ p.key) :
    hashTableGet table p.key = .ok none := by
  obtain ⟨hhash, hbucket⟩ := h.bucket_ok p.key
  have hcount := h.lists.count
  rw [List.length_append, List.length_singleton] at hcount
  cases hlist : table.buckets.getD 0 none with
  | none =>
    rw [hlist] at hcount
    exact absurd hcount (by simp [makeList])
  | some bucket =>
    have hlists := h.lists
    rw [hlist, Option.getD_some] at hlists hcount
    have hmiss : ∀ q ∈ ps, matchesKey p.key (some q) = .ok false := fun q hq => by
      simp [matchesKey, hother q hq]
    have hscan := scanFrom_none hmiss [] hlists
    have hpasses : intPasses bucket.count = ps.length := by
      rw [intPasses, hcount, hlen]
      decide
    have hfind : findMatchingPair bucket p.key = .ok none := by
      rw [findMatchingPair, hpasses]
      exact bind_of_ok hscan
    rw [hashTableGet, bind_of_ok hhash, bind_of_ok hbucket, hlist]
    exact bind_of_ok hfind

/-- The pairs of the first `n` keys. -/
def firstPairs (n : Nat) : List (KeyValuePair Nat) := (List.range n).map fun k => ⟨k, k⟩

theorem firstPairs_key {n : Nat} : ∀ q ∈ firstPairs n, q.key < n := by
  intro q hq
  obtain ⟨k, hk, rfl⟩ := List.mem_map.mp hq
  exact List.mem_range.mp hk

theorem firstPairs_succ (n : Nat) : firstPairs (n + 1) = firstPairs n ++ [⟨n, n⟩] := by
  rw [firstPairs, List.range_succ, List.map_append]
  rfl

theorem length_firstPairs (n : Nat) : (firstPairs n).length = n := by
  rw [firstPairs, List.length_map, List.length_range]

/-- Binding `n` keys more, one after the other. -/
theorem SingleBucket.sets {n : Nat} : ∀ {k : Nat} {table : HashTable Nat},
    SingleBucket table (firstPairs k) → k + n ≤ 2 ^ 31 + 1 →
    ∃ table', runTable table ((List.range' k n).map fun key => .set key key)
        = .ok (List.replicate n none, table') ∧ SingleBucket table' (firstPairs (k + n)) := by
  induction n with
  | zero => exact fun h _ => ⟨_, rfl, h⟩
  | succ n ih =>
    intro k table h hle
    obtain ⟨table₁, hset, h₁⟩ := h.set (by rw [length_firstPairs]; omega)
      (fun q hq => (firstPairs_key q hq).ne) k
    rw [← firstPairs_succ] at h₁
    obtain ⟨table', hrun, h'⟩ := ih h₁ (by omega)
    refine ⟨table', ?_, ?_⟩
    · rw [List.range'_succ, List.map_cons, runTable]
      exact (bind_of_ok hset).trans (bind_of_ok hrun)
    · rwa [show k + (n + 1) = k + 1 + n by omega]

theorem runTable_append {calls : List (TableCall Nat)} {values : List (Option Nat)} {call : TableCall Nat}
    {value : Option Nat} : ∀ {table : HashTable Nat}, runTable table calls = .ok (values, table') →
      call.run table' = .ok (value, table') →
      runTable table (calls ++ [call]) = .ok (values ++ [value], table') := by
  induction calls generalizing values with
  | nil =>
    intro table hrun hcall
    obtain ⟨rfl, rfl⟩ := Prod.mk.inj (Except.ok.inj hrun)
    exact bind_of_ok hcall
  | cons first calls ih =>
    intro table hrun hcall
    rw [runTable] at hrun
    cases hfirst : first.run table with
    | error e =>
      rw [hfirst] at hrun
      cases hrun
    | ok r =>
      rw [hfirst] at hrun
      cases hrest : runTable r.2 calls with
      | error e =>
        simp only [bind, Except.bind, hrest] at hrun
        cases hrun
      | ok rest =>
        simp only [bind, Except.bind, hrest, pure, Except.pure, Except.ok.injEq, Prod.mk.injEq] at hrun
        obtain ⟨rfl, rfl⟩ := hrun
        rw [List.cons_append, runTable, bind_of_ok hfirst]
        exact bind_of_ok (ih hrest hcall)

theorem runMap_append (calls : List (TableCall Nat)) (call : TableCall Nat) :
    ∀ f, runMap f (calls ++ [call])
      = runMap f calls ++ [call.answer (calls.foldl (fun f call => call.after f) f)] := by
  induction calls with
  | nil => exact fun f => rfl
  | cons first calls ih => exact fun f => congrArg _ (ih _)

end

/-- `2 ^ 31 + 1` keys, and a look at the last one. -/
def manyKeys : List (TableCall Nat) :=
  (List.range' 0 (2 ^ 31 + 1)).map (fun key => .set key key) ++ [.get (2 ^ 31)]

/-- With `2 ^ 32` buckets the modulus is zero; with a single bucket the last of `2 ^ 31 + 1` keys is
not found. -/
theorem hashTable_no_map :
    (¬ ∃ table, runTable (makeHashTable (2 ^ 32)) [.get 0]
      = .ok (runMap (fun _ => none) [(.get 0 : TableCall Nat)], table)) ∧
    (∀ call ∈ manyKeys, call.key < 2 ^ 32) ∧
    ¬ ∃ table, runTable (makeHashTable 1) manyKeys = .ok (runMap (fun _ => none) manyKeys, table) := by
  refine ⟨?_, ?_, ?_⟩
  · rintro ⟨table, hrun⟩
    have hhash : hashFunction (makeHashTable (2 ^ 32) : HashTable Nat) 0 = .error .divideByZero := by
      have hzero : wrap 32 (toInt32 ((2 ^ 32 : Nat) : Int)) = 0 := by decide
      rw [hashFunction]
      exact if_pos hzero
    have hget : hashTableGet (makeHashTable (2 ^ 32) : HashTable Nat) 0 = .error .divideByZero := by
      rw [hashTableGet, hhash]
      rfl
    rw [runTable, TableCall.run, hget] at hrun
    cases hrun
  · intro call hcall
    rcases List.mem_append.mp hcall with hcall | hcall
    · obtain ⟨key, hkey, rfl⟩ := List.mem_map.mp hcall
      rw [List.mem_range'_1] at hkey
      show key < 2 ^ 32
      omega
    · rw [List.mem_singleton.mp hcall]
      decide
  · rintro ⟨table, hrun⟩
    have hstart : SingleBucket (makeHashTable 1) (firstPairs 0) :=
      ⟨rfl, rfl, repr_makeList (by decide)⟩
    obtain ⟨table', hsets, hfull⟩ := hstart.sets (n := 2 ^ 31 + 1) (by omega)
    rw [Nat.zero_add, firstPairs_succ] at hfull
    have hget : (TableCall.get (2 ^ 31)).run table' = .ok (none, table') :=
      bind_of_ok (hfull.get_last (length_firstPairs _) fun q hq => (firstPairs_key q hq).ne)
    have hmap := runMap_append ((List.range' 0 (2 ^ 31 + 1)).map fun key => .set key key)
      (.get (2 ^ 31)) fun _ => none
    rw [manyKeys, hmap, runTable_append hsets hget] at hrun
    -- the last answers differ
    have hlast := congrArg List.getLast? (Prod.mk.inj (Except.ok.inj hrun)).1
    rw [List.getLast?_concat, List.getLast?_concat, List.range'_concat, List.map_append,
      List.foldl_append, Option.some.injEq] at hlast
    simp only [List.map_singleton, List.foldl_cons, List.foldl_nil, TableCall.answer,
      TableCall.after, Nat.zero_add, Nat.one_mul, Function.update_self] at hlast
    cases hlast

end Paging
end OsAssignments
