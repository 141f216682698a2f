import OsAssignments.Paging.CList

/-!
# The hash table of `opt.c`

* `HashTable` with `hashTableGet`, `hashTableSet`, `hashTableRemove` — buckets of
  pairs, made on demand and dropped when they are empty.
* `HashTable.Repr` — the table stores this finite map.  `hashTableGet_ok`,
  `hashTableSet_ok` and `hashTableRemove_ok` are the operations of the map.
* `Roomy` — no bucket gets more pairs than an `int` counts, without which a key is not found.

Values are held in the pairs directly: what the source changes through a pointer it
got from the table is stored back with `hashTableSet`.
-/

namespace OsAssignments
namespace Paging

open MachineWord

/-! ## The table and its operations -/

/-- `KeyValuePair`.  Pairs of one bucket have different keys, so that comparing
pairs is comparing the pointers to them. -/
structure KeyValuePair (α : Type) where
  key : Nat
  value : α
  deriving DecidableEq

/-- `HashTable`; `none` is a `NULL` bucket. -/
structure HashTable (α : Type) where
  numBuckets : Nat
  buckets : List (Option (CList (KeyValuePair α)))

section

variable {α : Type}

/-- `hashFunction`. -/
def hashFunction (table : HashTable α) (key : Nat) : Except Fault Int :=
  let divisor := wrap 32 (toInt32 table.numBuckets)
  if divisor = 0 then .error .divideByZero else .ok (toInt32 ((key % divisor : Nat) : Int))

/-- `initBuckets` and `makeHashTable`. -/
def makeHashTable (numBuckets : Nat) : HashTable α := ⟨numBuckets, List.replicate numBuckets none⟩

/-- `table->buckets[hash]`. -/
def HashTable.bucket (table : HashTable α) (hash : Int) :
    Except Fault (Option (CList (KeyValuePair α))) :=
  if hash < 0 then .error .outOfBounds
  else
    match table.buckets[hash.toNat]? with
    | some bucket => .ok bucket
    | none => .error .outOfBounds

/-- Store in `table->buckets[hash]`, which has been read before. -/
def HashTable.setBucket (table : HashTable α) (hash : Int)
    (bucket : Option (CList (KeyValuePair α))) : HashTable α :=
  { table with buckets := table.buckets.set hash.toNat bucket }

/-- Does a slot of a bucket hold the pair of `key`? -/
def matchesKey (key : Nat) : Option (KeyValuePair α) → Except Fault Bool
  | none => .error .nullPointer
  | some pair => .ok (pair.key == key)

/-- `findMatchingPair`; a pair comes with the slot it is in. -/
def findMatchingPair (bucket : CList (KeyValuePair α)) (key : Nat) :
    Except Fault (Option (Nat × KeyValuePair α)) := do
  match ← scanFrom bucket (matchesKey key) (intPasses bucket.count) 0 with
  | none => pure none
  | some i =>
    match ← bucket.slot i with
    | none => .error .nullPointer
    | some pair => pure (some (i, pair))

/-- `hashTableGet`. -/
def hashTableGet (table : HashTable α) (key : Nat) : Except Fault (Option α) := do
  let hash ← hashFunction table key
  match ← table.bucket hash with
  | none => pure none
  | some bucket =>
    match ← findMatchingPair bucket key with
    | none => pure none
    | some (_, pair) => pure (some pair.value)

/-- `HASH_TABLE_BUCKET_SIZE`. -/
def hashTableBucketSize : Nat := 5

/-- `hashTableSet`. -/
def hashTableSet (table : HashTable α) (key : Nat) (value : α) :
    Except Fault (Option α × HashTable α) := do
  let hash ← hashFunction table key
  let bucket := (← table.bucket hash).getD (makeList hashTableBucketSize)
  match ← findMatchingPair bucket key with
  | some (i, pair) =>
    let bucket ← bucket.setSlot i (some { pair with value := value })
    pure (some pair.value, table.setBucket hash (some bucket))
  | none =>
    let bucket ← listAppend bucket ⟨key, value⟩
    pure (none, table.setBucket hash (some bucket))

/-- `hashTableRemove`. -/
def hashTableRemove [DecidableEq α] (table : HashTable α) (key : Nat) :
    Except Fault (Option α × HashTable α) := do
  let hash ← hashFunction table key
  match ← table.bucket hash with
  | none => pure (none, table)
  | some bucket =>
    match ← findMatchingPair bucket key with
    | none => pure (none, table)
    | some (_, pair) =>
      let bucket ← listDelete bucket pair
      pure (some pair.value, table.setBucket hash (if bucket.count = 0 then none else some bucket))

/-! ## What a table stores -/

/-- No bucket of a table with `n` buckets that stores the map `f` has more than `2 ^ 31` pairs. -/
def Roomy (n : Nat) (f : Nat → Option α) : Prop :=
  ∀ h, {k | k % n = h ∧ f k ≠ none}.encard ≤ 2 ^ 31

/-- Different keys of one bucket. -/
theorem Roomy.length_le {n h : Nat} {f : Nat → Option α} (hf : Roomy n f) {keys : List Nat}
    (hnodup : keys.Nodup) (hkeys : ∀ k ∈ keys, k % n = h ∧ f k ≠ none) :
    keys.length ≤ 2 ^ 31 := by
  have hsub : (keys.toFinset : Set Nat) ⊆ {k | k % n = h ∧ f k ≠ none} := fun k hk =>
    hkeys k (List.mem_toFinset.mp hk)
  have hle := (Set.encard_le_encard hsub).trans (hf h)
  rw [Set.encard_coe_eq_coe_finsetCard, List.toFinset_card_of_nodup hnodup] at hle
  exact_mod_cast hle

/-- A map whose keys are listed. -/
theorem roomy_of_mem {n : Nat} {f : Nat → Option α} {keys : List Nat} (hlen : keys.length ≤ 2 ^ 31)
    (hkeys : ∀ k, f k ≠ none → k ∈ keys) : Roomy n f := by
  intro h
  have hsub : {k | k % n = h ∧ f k ≠ none} ⊆ (keys.toFinset : Set Nat) := fun k hk =>
    List.mem_toFinset.mpr (hkeys k hk.2)
  have hle := Set.encard_le_encard hsub
  rw [Set.encard_coe_eq_coe_finsetCard] at hle
  exact hle.trans (by exact_mod_cast (List.toFinset_card_le keys).trans hlen)

/-- Bucket `h` of a table with `n` buckets stores the part of the map `f` that
belongs there, as the pairs `ps`. -/
structure BucketRepr (n h : Nat) (f : Nat → Option α) (bucket : Option (CList (KeyValuePair α)))
    (ps : List (KeyValuePair α)) : Prop where
  repr : (bucket.getD (makeList hashTableBucketSize)).Repr ps
  nodup : (ps.map KeyValuePair.key).Nodup
  small : ps.length ≤ 2 ^ 31
  hash : ∀ p ∈ ps, p.key % n = h
  lookup : ∀ k v, k % n = h → (f k = some v ↔ (⟨k, v⟩ : KeyValuePair α) ∈ ps)

/-- A number of buckets that an `int` holds, and not zero. -/
structure HashTable.Proper (table : HashTable α) : Prop where
  pos : 0 < table.numBuckets
  small : table.numBuckets < 2 ^ 31
  length : table.buckets.length = table.numBuckets

/-- The table stores the finite map `f`. -/
structure HashTable.Repr (table : HashTable α) (f : Nat → Option α) : Prop
    extends HashTable.Proper table where
  buckets : ∀ h, h < table.numBuckets →
    ∃ ps, BucketRepr table.numBuckets h f (table.buckets.getD h none) ps

theorem proper_makeHashTable {n : Nat} (hpos : 0 < n) (hn : n < 2 ^ 31) :
    (makeHashTable n : HashTable α).Proper := ⟨hpos, hn, List.length_replicate⟩

theorem repr_makeHashTable {n : Nat} (hpos : 0 < n) (hn : n < 2 ^ 31) :
    (makeHashTable n : HashTable α).Repr fun _ => none := by
  refine ⟨proper_makeHashTable hpos hn, fun h hh => ⟨[], ?_, by simp, by simp, by simp, by simp⟩⟩
  have hnone : (makeHashTable n : HashTable α).buckets.getD h none = none := by
    have hh' : h < n := hh
    simp [makeHashTable, hh']
  rw [hnone]
  exact repr_makeList (by decide)

theorem findMatchingPair_ok {bucket : CList (KeyValuePair α)} {ps : List (KeyValuePair α)}
    (h : bucket.Repr ps) (hsmall : ps.length ≤ 2 ^ 31) (key : Nat) :
    (∃ pre p post, ps = pre ++ p :: post ∧ p.key = key ∧ (∀ q ∈ pre, q.key ≠ key) ∧
      findMatchingPair bucket key = .ok (some (pre.length, p))) ∨
    ((∀ q ∈ ps, q.key ≠ key) ∧ findMatchingPair bucket key = .ok none) := by
  have hmiss : ∀ q : KeyValuePair α, q.key ≠ key → matchesKey key (some q) = .ok false := by
    intro q hq
    simp [matchesKey, hq]
  have hpasses : intPasses bucket.count = bucket.count := intPasses_of_le (h.count.trans_le hsmall)
  cases hfind : ps.find? fun p => p.key == key with
  | some p =>
    left
    obtain ⟨hp, pre, post, rfl, hpre⟩ := List.find?_eq_some_iff_append.mp hfind
    have hp' : p.key = key := by simpa using hp
    have hpre' : ∀ q ∈ pre, q.key ≠ key := fun q hq => by simpa using hpre q hq
    have hscan := scanFrom_found (show matchesKey key (some p) = .ok true by simp [matchesKey, hp'])
      (fun q hq => hmiss q (hpre' q hq)) [] h bucket.count (by rw [h.count]; simp)
    rw [List.length_nil, Nat.zero_add] at hscan
    have hslot : bucket.slot pre.length = .ok (some p) := by
      rw [h.slot (by simp)]
      simp
    refine ⟨pre, p, post, rfl, hp', hpre', ?_⟩
    simp [findMatchingPair, hpasses, hscan, hslot, bind, Except.bind, pure, Except.pure]
  | none =>
    right
    have hne : ∀ q ∈ ps, q.key ≠ key := fun q hq => by simpa using List.find?_eq_none.mp hfind q hq
    have hscan := scanFrom_none (fun q hq => hmiss q (hne q hq)) []
      (show bucket.Repr ([] ++ ps ++ []) by simpa using h)
    rw [List.length_nil, ← h.count] at hscan
    refine ⟨hne, ?_⟩
    simp [findMatchingPair, hpasses, hscan, bind, Except.bind, pure, Except.pure]

namespace HashTable.Proper

variable {table : HashTable α}

theorem hashFunction_ok (h : table.Proper) (key : Nat) :
    hashFunction table key = .ok ((key % table.numBuckets : Nat) : Int) := by
  have hpos := h.pos
  have hsmall := h.small
  have hdiv : wrap 32 (toInt32 table.numBuckets) = table.numBuckets := by
    rw [toInt32_natCast hsmall, wrap_of_lt (by omega)]
  have hlt := Nat.mod_lt key hpos
  have hcast : toInt32 ((key % table.numBuckets : Nat) : Int)
      = ((key % table.numBuckets : Nat) : Int) := toInt32_natCast (by omega)
  simp only [hashFunction, hdiv, if_neg hpos.ne', hcast]

theorem bucket_ok (h : table.Proper) {i : Nat} (hi : i < table.numBuckets) :
    table.bucket (i : Nat) = .ok (table.buckets.getD i none) := by
  have hi' : i < table.buckets.length := by rw [h.length]; exact hi
  have hneg : ¬((i : Int) < 0) := by omega
  simp only [HashTable.bucket, if_neg hneg, Int.toNat_natCast, List.getElem?_eq_getElem hi',
    List.getD_eq_getElem _ _ hi']

/-- A bucket is stored. -/
theorem setBucket (h : table.Proper) (i : Int) (bucket : Option (CList (KeyValuePair α))) :
    (table.setBucket i bucket).Proper :=
  ⟨h.pos, h.small, by simp [HashTable.setBucket, h.length]⟩

end HashTable.Proper

namespace HashTable.Repr

variable {table : HashTable α} {f : Nat → Option α}

/-- Storing a new bucket for the keys of hash `i` changes the map on these keys
only. -/
theorem setBucket (h : table.Repr f) {i : Nat} {g : Nat → Option α}
    {bucket : Option (CList (KeyValuePair α))} {ps : List (KeyValuePair α)}
    (hsame : ∀ k, k % table.numBuckets ≠ i → g k = f k)
    (hnew : BucketRepr table.numBuckets i g bucket ps) :
    (table.setBucket (i : Nat) bucket).Repr g := by
  refine ⟨h.toProper.setBucket _ _, fun j hj => ?_⟩
  have hj' : j < table.numBuckets := hj
  by_cases hij : i = j
  · subst hij
    refine ⟨ps, ?_⟩
    have hget : (table.setBucket (i : Nat) bucket).buckets.getD i none = bucket := by
      simp [HashTable.setBucket, h.length, hj']
    rw [hget]
    exact hnew
  · obtain ⟨qs, hq⟩ := h.buckets j hj'
    have hget : (table.setBucket (i : Nat) bucket).buckets.getD j none = table.buckets.getD j none := by
      simp [HashTable.setBucket, hij]
    refine ⟨qs, ?_⟩
    rw [hget]
    refine ⟨hq.repr, hq.nodup, hq.small, hq.hash, fun k v hk => ?_⟩
    have hki : k % table.numBuckets ≠ i := fun hEq => hij (hEq.symm.trans hk)
    rw [hsame k hki]
    exact hq.lookup k v hk

end HashTable.Repr

/-- **`hashTableGet` looks a key up.** -/
theorem hashTableGet_ok {table : HashTable α} {f : Nat → Option α} (h : table.Repr f) (key : Nat) :
    hashTableGet table key = .ok (f key) := by
  have hlt := Nat.mod_lt key h.pos
  obtain ⟨ps, hb⟩ := h.buckets _ hlt
  have hrun : hashTableGet table key =
      (findMatchingPair ((table.buckets.getD (key % table.numBuckets) none).getD
        (makeList hashTableBucketSize)) key).bind fun r => .ok (r.map fun p => p.2.value) := by
    rw [hashTableGet, bind_of_ok (h.hashFunction_ok key), bind_of_ok (h.bucket_ok hlt)]
    cases hbucket : table.buckets.getD (key % table.numBuckets) none with
    | none => rfl
    | some bucket =>
      show (findMatchingPair bucket key >>= _) = (findMatchingPair bucket key).bind _
      cases findMatchingPair bucket key with
      | error e => rfl
      | ok r => cases r <;> rfl
  rw [hrun]
  rcases findMatchingPair_ok hb.repr hb.small key with ⟨pre, p, post, rfl, rfl, -, hfind⟩ | ⟨hne, hfind⟩
  · rw [hfind, (hb.lookup p.key p.value rfl).mpr (by simp)]
    rfl
  · have hnone : f key = none := by
      cases hk : f key with
      | none => rfl
      | some v => exact absurd rfl (hne _ ((hb.lookup key v rfl).mp hk))
    rw [hfind, hnone]
    rfl

/-- **`hashTableSet` binds a key** and returns what it was bound to. -/
theorem hashTableSet_ok {table : HashTable α} {f : Nat → Option α} (h : table.Repr f) (key : Nat)
    (value : α) (hroom : Roomy table.numBuckets (Function.update f key (some value))) :
    ∃ table', hashTableSet table key value = .ok (f key, table') ∧
      table'.Repr (Function.update f key (some value)) ∧ table'.numBuckets = table.numBuckets := by
  have hlt := Nat.mod_lt key h.pos
  obtain ⟨ps, hb⟩ := h.buckets _ hlt
  have hsame : ∀ k, k % table.numBuckets ≠ key % table.numBuckets →
      Function.update f key (some value) k = f k := by
    intro k hk
    exact Function.update_of_ne (fun hEq => hk (by rw [hEq])) _ _
  rcases findMatchingPair_ok hb.repr hb.small key with ⟨pre, p, post, rfl, rfl, hpre, hfind⟩ | ⟨hne, hfind⟩
  · -- the pair of the key is changed in place
    have hold : f p.key = some p.value := (hb.lookup p.key p.value rfl).mpr (by simp)
    have hnodup := hb.nodup
    rw [List.map_append, List.map_cons, List.nodup_append, List.nodup_cons] at hnodup
    have hpost : ∀ q ∈ post, q.key ≠ p.key :=
      fun q hq hEq => hnodup.2.1.1 (hEq ▸ List.mem_map_of_mem hq)
    obtain ⟨bucket, hset, hrepr⟩ := setSlot_ok hb.repr { p with value := value }
    refine ⟨table.setBucket _ (some bucket), ?_, h.setBucket hsame ⟨hrepr, ?_, ?_, ?_, ?_⟩, rfl⟩
    · rw [hashTableSet, bind_of_ok (h.hashFunction_ok p.key), bind_of_ok (h.bucket_ok hlt),
        bind_of_ok hfind, hold]
      exact bind_of_ok hset
    · simpa using hb.nodup
    · simpa using hb.small
    · intro q hq
      rcases List.mem_append.mp hq with hq | hq
      · exact hb.hash q (by simp [hq])
      · rcases List.mem_cons.mp hq with rfl | hq
        · exact rfl
        · exact hb.hash q (by simp [hq])
    · intro k v hk
      by_cases hkp : k = p.key
      · subst hkp
        rw [Function.update_self, Option.some.injEq]
        constructor
        · rintro rfl
          simp
        · intro hmem
          rcases List.mem_append.mp hmem with hmem | hmem
          · exact (hpre _ hmem rfl).elim
          · rcases List.mem_cons.mp hmem with hEq | hmem
            · exact (congrArg KeyValuePair.value hEq).symm
            · exact (hpost _ hmem rfl).elim
      · rw [Function.update_of_ne hkp, hb.lookup k v hk]
        have h₁ : (⟨k, v⟩ : KeyValuePair α) ≠ p := fun hEq => hkp (congrArg KeyValuePair.key hEq)
        have h₂ : (⟨k, v⟩ : KeyValuePair α) ≠ { p with value := value } :=
          fun hEq => hkp (congrArg KeyValuePair.key hEq)
        rw [List.mem_append, List.mem_append, List.mem_cons, List.mem_cons]
        tauto
  · -- a new pair goes behind the others
    have hold : f key = none := by
      cases hk : f key with
      | none => rfl
      | some v => exact absurd rfl (hne _ ((hb.lookup key v rfl).mp hk))
    obtain ⟨bucket, happend, hrepr⟩ := listAppend_ok hb.repr (fun _ => hb.small) ⟨key, value⟩
    have hnodup : (ps.map KeyValuePair.key ++ [key]).Nodup := by
      rw [List.nodup_append]
      refine ⟨hb.nodup, by simp, ?_⟩
      intro a ha b hb' hab
      obtain ⟨q, hq, rfl⟩ := List.mem_map.mp ha
      have hbk : b = key := by simpa using hb'
      exact hne q hq (hab.trans hbk)
    refine ⟨table.setBucket _ (some bucket), ?_, h.setBucket hsame ⟨hrepr, ?_, ?_, ?_, ?_⟩, rfl⟩
    · rw [hashTableSet, bind_of_ok (h.hashFunction_ok key), bind_of_ok (h.bucket_ok hlt),
        bind_of_ok hfind, hold]
      exact bind_of_ok happend
    · rw [List.map_append]
      exact hnodup
    · have hle := hroom.length_le (h := key % table.numBuckets) hnodup fun k hk => ?_
      · simpa using hle
      · rw [List.mem_append, List.mem_singleton] at hk
        rcases hk with hk | rfl
        · obtain ⟨q, hq, rfl⟩ := List.mem_map.mp hk
          rw [Function.update_of_ne (hne q hq), (hb.lookup q.key q.value (hb.hash q hq)).mpr hq]
          exact ⟨hb.hash q hq, Option.some_ne_none _⟩
        · rw [Function.update_self]
          exact ⟨rfl, Option.some_ne_none _⟩
    · intro q hq
      rcases List.mem_append.mp hq with hq | hq
      · exact hb.hash q hq
      · rw [List.mem_singleton.mp hq]
    · intro k v hk
      rw [List.mem_append, List.mem_singleton]
      by_cases hkk : k = key
      · subst hkk
        rw [Function.update_self, Option.some.injEq, KeyValuePair.mk.injEq]
        constructor
        · rintro rfl
          exact .inr ⟨rfl, rfl⟩
        · rintro (hmem | ⟨-, rfl⟩)
          · exact (hne _ hmem rfl).elim
          · rfl
      · rw [Function.update_of_ne hkk, hb.lookup k v hk, KeyValuePair.mk.injEq]
        tauto

/-- **`hashTableRemove` unbinds a key** and returns what it was bound to. -/
theorem hashTableRemove_ok [DecidableEq α] {table : HashTable α} {f : Nat → Option α}
    (h : table.Repr f) (key : Nat) :
    ∃ table', hashTableRemove table key = .ok (f key, table') ∧
      table'.Repr (Function.update f key none) ∧ table'.numBuckets = table.numBuckets := by
  have hlt := Nat.mod_lt key h.pos
  obtain ⟨ps, hb⟩ := h.buckets _ hlt
  rcases findMatchingPair_ok hb.repr hb.small key with ⟨pre, p, post, rfl, rfl, hpre, hfind⟩ | ⟨hne, hfind⟩
  · have hold : f p.key = some p.value := (hb.lookup p.key p.value rfl).mpr (by simp)
    have hnodup := hb.nodup
    rw [List.map_append, List.map_cons, List.nodup_append, List.nodup_cons] at hnodup
    have hpost : ∀ q ∈ post, q.key ≠ p.key :=
      fun q hq hEq => hnodup.2.1.1 (hEq ▸ List.mem_map_of_mem hq)
    obtain ⟨bucket, hdelete, hrepr⟩ :=
      listDelete_ok hb.repr hb.small fun hmem => hpre p hmem rfl
    have hsome : ∃ b, table.buckets.getD (p.key % table.numBuckets) none = some b := by
      cases hbucket : table.buckets.getD (p.key % table.numBuckets) none with
      | some b => exact ⟨b, rfl⟩
      | none =>
        have hcount := hb.repr.count
        rw [hbucket] at hcount
        simp [makeList] at hcount
    obtain ⟨b, hbucket⟩ := hsome
    rw [hbucket, Option.getD_some] at hfind hdelete
    have hnew : BucketRepr table.numBuckets (p.key % table.numBuckets) (Function.update f p.key none)
        (if bucket.count = 0 then none else some bucket) (pre ++ post) := by
      refine ⟨?_, ?_, ?_, ?_, ?_⟩
      · split
        · rename_i hzero
          rw [hrepr.count, List.length_eq_zero_iff] at hzero
          rw [hzero]
          exact repr_makeList (by decide)
        · exact hrepr
      · rw [List.map_append]
        exact List.nodup_append.mpr ⟨hnodup.1, hnodup.2.1.2,
          fun a ha b hb' => hnodup.2.2 a ha b (List.mem_cons_of_mem _ hb')⟩
      · have hle := hb.small
        rw [List.length_append, List.length_cons] at hle
        rw [List.length_append]
        omega
      · intro q hq
        refine hb.hash q ?_
        rw [List.mem_append] at hq
        rw [List.mem_append, List.mem_cons]
        tauto
      · intro k v hk
        by_cases hkp : k = p.key
        · subst hkp
          rw [Function.update_self]
          constructor
          · intro hEq
            cases hEq
          · intro hmem
            rcases List.mem_append.mp hmem with hmem | hmem
            · exact (hpre _ hmem rfl).elim
            · exact (hpost _ hmem rfl).elim
        · rw [Function.update_of_ne hkp, hb.lookup k v hk]
          have hne : (⟨k, v⟩ : KeyValuePair α) ≠ p := fun hEq => hkp (congrArg KeyValuePair.key hEq)
          rw [List.mem_append, List.mem_append, List.mem_cons]
          tauto
    have hsame : ∀ k, k % table.numBuckets ≠ p.key % table.numBuckets →
        Function.update f p.key none k = f k :=
      fun k hk => Function.update_of_ne (fun hEq => hk (by rw [hEq])) _ _
    refine ⟨_, ?_, h.setBucket hsame hnew, rfl⟩
    rw [hashTableRemove, bind_of_ok (h.hashFunction_ok p.key), bind_of_ok (h.bucket_ok hlt),
      hbucket, hold]
    exact (bind_of_ok hfind).trans (bind_of_ok hdelete)
  · have hold : f key = none := by
      cases hk : f key with
      | none => rfl
      | some v => exact absurd rfl (hne _ ((hb.lookup key v rfl).mp hk))
    refine ⟨table, ?_, ?_, rfl⟩
    · rw [hashTableRemove, bind_of_ok (h.hashFunction_ok key), bind_of_ok (h.bucket_ok hlt), hold]
      cases hbucket : table.buckets.getD (key % table.numBuckets) none with
      | none => rfl
      | some b =>
        rw [hbucket, Option.getD_some] at hfind
        exact bind_of_ok hfind
    · have hsame : Function.update f key none = f := by
        rw [← hold, Function.update_eq_self]
      rw [hsame]
      exact h

end

end Paging
end OsAssignments
