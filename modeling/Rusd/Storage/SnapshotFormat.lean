/-
**The format of snapshots** (`storage/backend.rs`, `snapshot` and `restore`).

A snapshot is one record for each tree, and nothing says how many records there are. So a restore takes
whatever ends within three bytes after a record for complete.

* `readU32_eq_some`, `readField_eq_some` — what a reader accepts is what its writer writes.
* `encodeTree_append_inj` — no record is the front of another one.
* `restore_ok_iff` — a restore accepts whole records with at most three bytes behind them.
* `truncated_rejected_iff` — which truncations of a snapshot are rejected.
* `snapshot_round_trip` — the whole snapshot gives back every tree.
-/

import Rusd.Storage.Snapshot

namespace Rusd

namespace Backend

/-! ### What the readers accept -/

theorem readU32_eq_some {data rest : Bytes} {n : Nat} (read : readU32 data = some (n, rest)) :
    n < 2 ^ 32 ∧ data = leBytes 4 n ++ rest := by
  unfold readU32 at read
  split_ifs at read with short
  obtain ⟨rfl, rfl⟩ := Prod.mk.inj (Option.some.inj read)
  have width : (data.take 4).length = 4 := by
    rw [List.length_take]
    omega
  have digits := leBytes_ofLeBytes (data.take 4)
  have below := ofLeBytes_lt (data.take 4)
  rw [width] at digits below
  refine ⟨by norm_num at below ⊢; exact below, ?_⟩
  rw [digits, List.take_append_drop]

theorem readU32_eq_none {data : Bytes} : readU32 data = none ↔ data.length < 4 := by
  unfold readU32
  split_ifs with short
  · exact iff_of_true rfl short
  · exact iff_of_false (by simp) short

theorem readField_eq_some {data field rest : Bytes} (read : readField data = some (field, rest)) :
    field.length < 2 ^ 32 ∧ data = KeyValue.encodeField field ++ rest := by
  obtain ⟨⟨len, tail⟩, header, body⟩ := Option.bind_eq_some_iff.mp read
  obtain ⟨fits, rfl⟩ := readU32_eq_some header
  simp only at body
  split_ifs at body with short
  obtain ⟨rfl, rfl⟩ := Prod.mk.inj (Option.some.inj body)
  have width : (tail.take len).length = len := by
    rw [List.length_take]
    omega
  refine ⟨by rwa [width], ?_⟩
  rw [KeyValue.encodeField, width, List.append_assoc, List.take_append_drop]

/-- What the loop over the entries of a tree accepts. -/
theorem restoreEntries_eq_ok {name : TreeName} {count : Nat} {data rest : Bytes} {b b' : Backend}
    (ran : (restoreEntries name count data).run b = (.ok rest, b')) :
    ∃ entries : List (Bytes × Bytes), entries.length = count ∧
      (∀ e ∈ entries, e.1.length < 2 ^ 32 ∧ e.2.length < 2 ^ 32) ∧
      data = entries.flatMap snapshotEntry ++ rest := by
  induction count generalizing data b with
  | zero =>
    obtain ⟨same, -⟩ := Prod.mk.inj ran
    obtain rfl := Outcome.ok.inj same
    exact ⟨[], rfl, by simp, rfl⟩
  | succ count ih =>
    rw [restoreEntries] at ran
    rcases first : readField data with _ | ⟨key, tail⟩
    · rw [first] at ran
      cases ran
    rw [first] at ran
    simp only at ran
    rcases second : readField tail with _ | ⟨value, others⟩
    · rw [second] at ran
      cases ran
    rw [second] at ran
    obtain ⟨keyFits, rfl⟩ := readField_eq_some first
    obtain ⟨valueFits, rfl⟩ := readField_eq_some second
    obtain ⟨entries, length, fits, rfl⟩ := ih ran
    refine ⟨(key, value) :: entries, by rw [List.length_cons, length], ?_, ?_⟩
    · exact List.forall_mem_cons.mpr ⟨⟨keyFits, valueFits⟩, fits⟩
    · rw [List.flatMap_cons, snapshotEntry, List.append_assoc, List.append_assoc]

/-- **Whole records**, and at most three bytes behind them. -/
def WholeRecords (data : Bytes) : Prop :=
  ∃ (trees : List (TreeName × List (Bytes × Bytes))) (rest : Bytes), (∀ tree ∈ trees, RecordFits tree) ∧
    data = trees.flatMap encodeTree ++ rest ∧ rest.length < 4

theorem WholeRecords.few {data : Bytes} (few : data.length < 4) : WholeRecords data :=
  ⟨[], data, by simp, rfl, few⟩

theorem WholeRecords.cons {tree : TreeName × List (Bytes × Bytes)} (fits : RecordFits tree) {data : Bytes}
    (whole : WholeRecords data) : WholeRecords (encodeTree tree ++ data) := by
  obtain ⟨trees, rest, all, rfl, few⟩ := whole
  exact ⟨tree :: trees, rest, List.forall_mem_cons.mpr ⟨fits, all⟩,
    by rw [List.flatMap_cons, List.append_assoc], few⟩

theorem length_encodeTree (tree : TreeName × List (Bytes × Bytes)) : 8 ≤ (encodeTree tree).length := by
  rw [encodeTree, List.length_append, KeyValue.length_encodeField, List.length_append, length_leBytes]
  omega

/-- **One round of the loop over the trees**: it ends, it fails, or it has read the head of a record. -/
theorem restoreTrees_succ_cases (rounds : Nat) (data : Bytes) (b : Backend) :
    (data.length < 4 ∧ (restoreTrees (rounds + 1) data).run b = (.ok (), b)) ∨
    (∃ e, (restoreTrees (rounds + 1) data).run b = (.err e, b)) ∨
    ∃ (name : TreeName) (count : Nat) (body : Bytes), count < 2 ^ 32 ∧
      data = KeyValue.encodeField name.label ++ (leBytes 4 count ++ body) ∧
      (restoreTrees (rounds + 1) data).run b =
        (restoreEntries name count body >>= restoreTrees rounds).run b := by
  rw [restoreTrees]
  rcases header : readU32 data with _ | ⟨nameLen, tail⟩
  · exact .inl ⟨readU32_eq_none.mp header, rfl⟩
  right
  simp only
  by_cases short : tail.length < nameLen
  · rw [if_pos short]
    exact .inl ⟨_, rfl⟩
  by_cases valid : ValidUtf8 (tail.take nameLen)
  swap
  · rw [if_neg short, if_pos valid]
    exact .inl ⟨_, rfl⟩
  rw [if_neg short, if_neg (not_not_intro valid)]
  rcases label : TreeName.ofLabel (tail.take nameLen) with _ | name
  · exact .inl ⟨_, rfl⟩
  simp only
  rcases number : readU32 (tail.drop nameLen) with _ | ⟨count, body⟩
  · exact .inl ⟨_, rfl⟩
  obtain ⟨-, rfl⟩ := readU32_eq_some header
  obtain ⟨fits, split⟩ := readU32_eq_some number
  have named : name.label = tail.take nameLen := by
    simpa [TreeName.ofLabel] using List.find?_some label
  have width : name.label.length = nameLen := by
    rw [named, List.length_take]
    omega
  refine .inr ⟨name, count, body, fits, ?_, rfl⟩
  rw [KeyValue.encodeField, width, List.append_assoc, ← split, named, List.take_append_drop]

/-- What the loop over the trees accepts. -/
theorem restoreTrees_eq_ok {rounds : Nat} {data : Bytes} {b b' : Backend} (enough : data.length ≤ rounds)
    (ran : (restoreTrees rounds data).run b = (.ok (), b')) : WholeRecords data := by
  induction rounds generalizing data b with
  | zero => exact .few (by omega)
  | succ rounds ih =>
    rcases restoreTrees_succ_cases rounds data b with ⟨few, -⟩ | ⟨e, failed⟩ |
      ⟨name, count, body, fits, rfl, goesOn⟩
    · exact .few few
    · rw [failed] at ran
      cases ran
    · rw [goesOn] at ran
      obtain ⟨rest, middle, filled, others⟩ := Exec.run_bind_eq_ok ran
      obtain ⟨entries, length, fields, rfl⟩ := restoreEntries_eq_ok filled
      have record : KeyValue.encodeField name.label ++ (leBytes 4 count ++
          (entries.flatMap snapshotEntry ++ rest)) = encodeTree (name, entries) ++ rest := by
        rw [encodeTree, ← length]
        simp only [List.append_assoc]
      rw [record] at enough ⊢
      have long := length_encodeTree (name, entries)
      rw [List.length_append] at enough
      exact .cons ⟨length ▸ fits, fields⟩ (ih (by omega) others)

/-- The loop over the trees accepts whole records. -/
theorem restoreTrees_whole {trees : List (TreeName × List (Bytes × Bytes))}
    (fits : ∀ tree ∈ trees, RecordFits tree) {rest : Bytes} (few : rest.length < 4) {rounds : Nat}
    (enough : trees.length ≤ rounds) (b : Backend) :
    ∃ b', (restoreTrees rounds (trees.flatMap encodeTree ++ rest)).run b = (.ok (), b') := by
  induction trees generalizing rounds b with
  | nil =>
    cases rounds with
    | zero => exact ⟨b, rfl⟩
    | succ rounds =>
      rw [List.flatMap_nil, List.nil_append, restoreTrees, readU32_eq_none.mpr few]
      exact ⟨b, rfl⟩
  | cons tree trees ih =>
    obtain ⟨rounds, rfl⟩ : ∃ more, rounds = more + 1 := ⟨rounds - 1, by simp at enough; omega⟩
    obtain ⟨first, others⟩ := List.forall_mem_cons.mp fits
    rw [List.flatMap_cons, List.append_assoc, restoreTrees_encodeTree first]
    exact ih others (by simpa using enough) _

theorem length_le_flatMap_encodeTree (trees : List (TreeName × List (Bytes × Bytes))) :
    trees.length ≤ (trees.flatMap encodeTree).length := by
  induction trees with
  | nil => exact le_rfl
  | cons tree trees ih =>
    have long := length_encodeTree tree
    rw [List.flatMap_cons, List.length_cons, List.length_append]
    omega

/-- **A restore accepts** whole records, with at most three bytes behind them. -/
theorem restore_ok_iff (data : Bytes) (b : Backend) :
    (∃ b', (restore data).run b = (.ok (), b')) ↔ WholeRecords data := by
  constructor
  · rintro ⟨b', ran⟩
    exact restoreTrees_eq_ok le_rfl ran
  · rintro ⟨trees, rest, fits, rfl, few⟩
    have enough := length_le_flatMap_encodeTree trees
    refine restoreTrees_whole fits few ?_ b
    rw [List.length_append]
    omega

theorem restoreEntries_ne_panic (name : TreeName) (count : Nat) (data : Bytes) (b : Backend) :
    ((restoreEntries name count data).run b).1 ≠ .panic := by
  induction count generalizing data b with
  | zero => exact fun panicked => by cases panicked
  | succ count ih =>
    rw [restoreEntries]
    rcases readField data with _ | ⟨key, tail⟩
    · exact fun panicked => by cases panicked
    simp only
    rcases readField tail with _ | ⟨value, others⟩
    · exact fun panicked => by cases panicked
    · exact ih others _

theorem restoreTrees_ne_panic (rounds : Nat) (data : Bytes) (b : Backend) :
    ((restoreTrees rounds data).run b).1 ≠ .panic := by
  induction rounds generalizing data b with
  | zero => exact fun panicked => by cases panicked
  | succ rounds ih =>
    rcases restoreTrees_succ_cases rounds data b with ⟨-, ended⟩ | ⟨e, failed⟩ |
      ⟨name, count, body, -, -, goesOn⟩
    · rw [ended]
      exact fun panicked => by cases panicked
    · rw [failed]
      exact fun panicked => by cases panicked
    · rw [goesOn]
      rcases filled : (restoreEntries name count body).run b with ⟨rest | e | _, middle⟩
      · rw [Exec.run_bind_ok filled]
        exact ih rest middle
      · rw [Exec.run_bind_err filled]
        exact fun panicked => by cases panicked
      · exact absurd (congrArg Prod.fst filled) (restoreEntries_ne_panic name count body b)

/-- The restore into an empty backend returns an error. -/
def Rejects (data : Bytes) : Prop := ∃ e b', (restore data).run .empty = (.err e, b')

theorem rejects_iff (data : Bytes) : Rejects data ↔ ¬ WholeRecords data := by
  rw [← restore_ok_iff data .empty]
  rcases ran : (restore data).run .empty with ⟨_ | e | _, b'⟩
  · exact iff_of_false (fun ⟨_, _, failed⟩ => by cases failed.symm.trans ran) fun none => none ⟨b', rfl⟩
  · exact iff_of_true ⟨e, b', ran⟩ fun ⟨_, passed⟩ => by cases passed
  · exact absurd (congrArg Prod.fst ran) (restoreTrees_ne_panic _ _ _)

/-! ### Where a record ends -/

theorem encodeField_append_inj {a b x y : Bytes} (fitsA : a.length < 2 ^ 32) (fitsB : b.length < 2 ^ 32)
    (same : KeyValue.encodeField a ++ x = KeyValue.encodeField b ++ y) : a = b ∧ x = y := by
  have read := readField_encodeField fitsA x
  rw [same, readField_encodeField fitsB y] at read
  obtain ⟨rfl, rfl⟩ := Prod.mk.inj (Option.some.inj read)
  exact ⟨rfl, rfl⟩

theorem snapshotEntries_append_inj {entries others : List (Bytes × Bytes)}
    (length : entries.length = others.length)
    (fits : ∀ e ∈ entries, e.1.length < 2 ^ 32 ∧ e.2.length < 2 ^ 32)
    (fits' : ∀ e ∈ others, e.1.length < 2 ^ 32 ∧ e.2.length < 2 ^ 32) {x y : Bytes}
    (same : entries.flatMap snapshotEntry ++ x = others.flatMap snapshotEntry ++ y) :
    entries = others ∧ x = y := by
  induction entries generalizing others with
  | nil =>
    obtain rfl := List.length_eq_zero_iff.mp length.symm
    exact ⟨rfl, same⟩
  | cons e entries ih =>
    obtain ⟨other, others, rfl⟩ := List.exists_cons_of_length_eq_add_one length.symm
    obtain ⟨first, rest⟩ := List.forall_mem_cons.mp fits
    obtain ⟨first', rest'⟩ := List.forall_mem_cons.mp fits'
    simp only [List.flatMap_cons, snapshotEntry, List.append_assoc] at same
    obtain ⟨key, same⟩ := encodeField_append_inj first.1 first'.1 same
    obtain ⟨value, same⟩ := encodeField_append_inj first.2 first'.2 same
    obtain ⟨rfl, behind⟩ := ih (Nat.succ.inj length) rest rest' same
    exact ⟨by rw [Prod.ext key value], behind⟩

theorem label_injective {name other : TreeName} (same : name.label = other.label) : name = other := by
  revert same
  cases name <;> cases other <;> decide

/-- **A record is never the front of another one.** -/
theorem encodeTree_append_inj {tree other : TreeName × List (Bytes × Bytes)} (fits : RecordFits tree)
    (fits' : RecordFits other) {x y : Bytes} (same : encodeTree tree ++ x = encodeTree other ++ y) :
    tree = other ∧ x = y := by
  simp only [encodeTree, List.append_assoc] at same
  obtain ⟨label, same⟩ := encodeField_append_inj (length_label _) (length_label _) same
  have count := readU32_leBytes fits.count (tree.2.flatMap snapshotEntry ++ x)
  rw [same, readU32_leBytes fits'.count] at count
  obtain ⟨length, same⟩ := Prod.mk.inj (Option.some.inj count)
  obtain ⟨entries, behind⟩ := snapshotEntries_append_inj length fits'.fields fits.fields same
  exact ⟨Prod.ext (label_injective label) entries.symm, behind.symm⟩

/-- Where the record of the tree with this number begins. -/
def boundary (trees : List (TreeName × List (Bytes × Bytes))) (k : Nat) : Nat :=
  ((trees.take k).flatMap encodeTree).length

/-- **Which truncations of whole records are whole records**: those that end within three bytes behind a
record. -/
theorem wholeRecords_take_iff {trees : List (TreeName × List (Bytes × Bytes))}
    (fits : ∀ tree ∈ trees, RecordFits tree) {n : Nat} (cut : n < (trees.flatMap encodeTree).length) :
    WholeRecords ((trees.flatMap encodeTree).take n) ↔
      ∃ k < trees.length, boundary trees k ≤ n ∧ n < boundary trees k + 4 := by
  induction trees generalizing n with
  | nil => exact absurd cut (Nat.not_lt_zero n)
  | cons tree trees ih =>
    obtain ⟨first, others⟩ := List.forall_mem_cons.mp fits
    have later : ∀ k, boundary (tree :: trees) (k + 1) = (encodeTree tree).length + boundary trees k := by
      intro k
      rw [boundary, List.take_succ_cons, List.flatMap_cons, List.length_append]
      rfl
    have long := length_encodeTree tree
    rw [List.flatMap_cons] at cut ⊢
    constructor
    · rintro ⟨parsed, rest, all, same, few⟩
      cases parsed with
      | nil =>
        have length := congrArg List.length same
        rw [List.length_take, Nat.min_eq_left cut.le, List.flatMap_nil, List.nil_append] at length
        exact ⟨0, Nat.succ_pos _, Nat.zero_le n, by rw [boundary]; simp; omega⟩
      | cons other parsed =>
        obtain ⟨first', others'⟩ := List.forall_mem_cons.mp all
        rw [List.flatMap_cons, List.append_assoc] at same
        have whole := List.take_append_drop n (encodeTree tree ++ trees.flatMap encodeTree)
        rw [same, List.append_assoc] at whole
        obtain ⟨rfl, behind⟩ := encodeTree_append_inj first' first whole
        have length := congrArg List.length same
        rw [List.length_take, Nat.min_eq_left cut.le, List.length_append] at length
        rw [List.take_append, List.take_of_length_le (by omega)] at same
        rw [List.length_append] at cut
        obtain ⟨k, inside, low, high⟩ := (ih others (n := n - (encodeTree other).length) (by omega)).mp
          ⟨parsed, rest, others', List.append_cancel_left same, few⟩
        exact ⟨k + 1, by rw [List.length_cons]; omega, by rw [later]; omega, by rw [later]; omega⟩
    · rintro ⟨k, inside, low, high⟩
      cases k with
      | zero =>
        refine .few ?_
        rw [List.length_take]
        have start : boundary (tree :: trees) 0 = 0 := by rw [boundary]; rfl
        omega
      | succ k =>
        rw [later] at low high
        rw [List.length_append] at cut
        rw [List.take_append, List.take_of_length_le (by omega)]
        rw [List.length_cons] at inside
        exact .cons first ((ih others (by omega)).mpr ⟨k, by omega, by omega, by omega⟩)

/-- The records of a snapshot. -/
def records (b : Backend) : List (TreeName × List (Bytes × Bytes)) :=
  TreeName.all.map fun name => (name, (b.tree name).entries)

/-- **Which truncated snapshots are rejected.** For every backend and every proper front part of its
snapshot: a restore rejects it exactly if it is not made of whole records with at most three bytes behind
them; and where keys and values fit their length prefix, exactly if it does not end at the beginning of a
record or within three bytes behind it. -/
theorem truncated_rejected_iff (b : Backend) (data : Bytes) (taken : b.snapshot = .ok data) (n : Nat)
    (cut : n < data.length) :
    (Rejects (data.take n) ↔ ¬ WholeRecords (data.take n)) ∧
      ((∀ name key value, b.get name key = some value → key.length < 2 ^ 32 ∧ value.length < 2 ^ 32) →
        (Rejects (data.take n) ↔ ∀ k < 6, n < boundary b.records k ∨ boundary b.records k + 4 ≤ n)) := by
  refine ⟨rejects_iff _, fun fields => ?_⟩
  unfold snapshot at taken
  split_ifs at taken with counts
  have fits : b.Fits := ⟨fields, counts⟩
  have whole : data = b.records.flatMap encodeTree := by
    rw [← Outcome.ok.inj taken, records, List.flatMap_map]
    rfl
  have all : ∀ tree ∈ b.records, RecordFits tree := by
    intro tree member
    obtain ⟨name, known, rfl⟩ := List.mem_map.mp member
    exact fits.record known
  rw [whole] at cut ⊢
  rw [rejects_iff, wholeRecords_take_iff all cut]
  constructor
  · intro apart k few
    by_contra inside
    exact apart ⟨k, few, by omega, by omega⟩
  · rintro apart ⟨k, few, low, high⟩
    have := apart k few
    omega

/-- A user, and nothing else. -/
def oneUser : Backend := empty.put .auth [117] [112]

theorem oneUser_fields (name : TreeName) (key value : Bytes) (found : oneUser.get name key = some value) :
    key.length < 2 ^ 32 ∧ value.length < 2 ^ 32 := by
  rw [oneUser, get_put] at found
  split_ifs at found with same
  · rw [same.2, ← Option.some.inj found]
    decide
  · cases found

/-- A cut inside the first record. -/
theorem cut_name_rejected : Rejects ((oneUser.records.flatMap encodeTree).take 5) :=
  ((truncated_rejected_iff oneUser (oneUser.records.flatMap encodeTree) (by decide) 5
    (by decide)).2 oneUser_fields).mpr (by decide)

/-- **A truncated snapshot that is accepted.** It ends where the record of the users would begin. -/
theorem missing_tree_accepted :
    ∃ data, oneUser.snapshot = .ok data ∧ boundary oneUser.records 5 < data.length ∧
      ¬ Rejects (data.take (boundary oneUser.records 5)) ∧
      ∃ restored, (restore (data.take (boundary oneUser.records 5))).run .empty = (.ok (), restored) ∧
        oneUser.get .auth [117] = some [112] ∧ restored.get .auth [117] = none := by
  refine ⟨_, rfl, by decide, ?_, _, rfl, by decide, by decide⟩
  rintro ⟨e, b', failed⟩
  cases failed

/-- **A snapshot gives back every tree.** -/
theorem snapshot_round_trip (b : Backend)
    (fields : ∀ name key value, b.get name key = some value →
      key.length < 2 ^ 32 ∧ value.length < 2 ^ 32)
    (counts : ∀ name, (b.tree name).entries.length < 2 ^ 32) :
    ∃ data, b.snapshot = .ok data ∧ ∃ restored, (restore data).run .empty = (.ok (), restored) ∧
      ∀ name, restored.tree name = b.tree name := by
  have fits : b.Fits := ⟨fields, fun name _ => counts name⟩
  have taken : b.snapshot = .ok (TreeName.all.flatMap b.snapshotTree) := if_pos fits.counts
  exact ⟨_, taken, b, restore_snapshot fits taken, fun _ => rfl⟩

/-- The snapshot of one user. -/
theorem one_user_round_trip :
    ∃ data, oneUser.snapshot = .ok data ∧ ∃ restored, (restore data).run .empty = (.ok (), restored) ∧
      ∀ name, restored.tree name = oneUser.tree name :=
  snapshot_round_trip oneUser oneUser_fields fun name => by cases name <;> decide

end Backend

end Rusd
