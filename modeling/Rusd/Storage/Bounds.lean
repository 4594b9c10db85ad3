/-
**The decoders and the snapshot parser, access by access** (`storage/mvcc.rs`, `storage/backend.rs`).

The functions index and slice the buffer at places they compute. Here every access and every sum is
checked, and `restore` goes over the buffer by offset as the source does, each part returning the offset
behind what it read.

* `decode_eq`, `decodeWithKey_eq`, `restore_eq` — they do what the functions on whole byte strings do.
* `restoreEntry_further`, `restoreTree_further` — an entry and a tree are eight bytes at least, and end in
  the buffer.
* `decoders_total_iff` — nothing is out of bounds, except in `decode` of a record of 32 to 35 bytes.
-/

import Rusd.Lib.Checked
import Rusd.Storage.SnapshotFormat

namespace Rusd.Checked

open Backend (readU32 readField invalidSnapshot)

/-! ### The decoders -/

/-- `KeyValue::decode`. -/
def decode (key : Bytes) (data : Buffer) : Outcome StorageError KeyValue :=
  if data.val.length < 32 then .err (.mvcc "Invalid KeyValue encoding")
  else do
    let createRevision ← bytesAt data 0 (List.range 8)
    let modRevision ← bytesAt data 8 (List.range 8)
    let version ← bytesAt data 16 (List.range 8)
    let lease ← bytesAt data 24 (List.range 8)
    let valueLen ← u32At data 32
    let stop ← usizeAdd 36 valueLen
    if stop.val > data.val.length then .err (.mvcc "Invalid KeyValue encoding")
    else do
      let value ← sliceAt data 36 stop
      .ok {
        key := key
        createRevision := i64OfLe createRevision
        modRevision := i64OfLe modRevision
        version := i64OfLe version
        value := value
        lease := i64OfLe lease }

/-- `KeyValue::decode_with_key`. -/
def decodeWithKey (data : Buffer) : Outcome StorageError KeyValue :=
  if data.val.length < 36 then .err (.mvcc "Invalid KeyValue encoding (with key)")
  else do
    let createRevision ← sliceAt data 0 8
    let modRevision ← sliceAt data 8 16
    let version ← sliceAt data 16 24
    let lease ← sliceAt data 24 32
    let keyLen ← sliceAt data 32 36
    let valOffset ← usizeAdd 36 (ofLeBytes keyLen)
    let valueStart ← usizeAdd valOffset 4
    if valueStart.val > data.val.length then .err (.mvcc "Invalid KeyValue encoding (key too long)")
    else do
      let key ← sliceAt data 36 valOffset
      let valueLen ← sliceAt data valOffset valueStart
      let stop ← usizeAdd valueStart (ofLeBytes valueLen)
      if stop.val > data.val.length then
        .err (.mvcc "Invalid KeyValue encoding (value too long)")
      else do
        let value ← sliceAt data valueStart stop
        .ok {
          key := key
          createRevision := i64OfLe createRevision
          modRevision := i64OfLe modRevision
          version := i64OfLe version
          value := value
          lease := i64OfLe lease }

/-! ### The loops of `restore` -/

/-- A field with its length in front: the checks before both, the field, and the offset behind it. -/
def fieldAt (data : Buffer) (offset : Nat) :
    Outcome BackendError (Bytes × { next : Nat // offset < next }) := do
  let start ← usizeAdd offset 4
  if start.val > data.val.length then .err invalidSnapshot
  else do
    let len ← u32At data offset
    let stop ← usizeAdd start len
    if stop.val > data.val.length then .err invalidSnapshot
    else do
      let field ← sliceAt data start stop
      .ok (field, ⟨stop, by have := start.property; have := stop.property; omega⟩)

/-- One pass of the loop over the entries of a tree. -/
def restoreEntry (name : TreeName) (data : Buffer) (offset : Nat) :
    Exec Backend BackendError { next : Nat // offset < next } := do
  let (key, middle) ← Exec.lift (fieldAt data offset)
  let (value, next) ← Exec.lift (fieldAt data middle)
  Exec.update fun b => b.put name key value
  pure ⟨next, middle.property.trans next.property⟩

/-- `for _ in 0..count`. -/
def restoreEntries (name : TreeName) (data : Buffer) :
    Nat → (offset : Nat) → Exec Backend BackendError { next : Nat // offset ≤ next }
  | 0, offset => pure ⟨offset, le_rfl⟩
  | count + 1, offset => do
    let middle ← restoreEntry name data offset
    let next ← restoreEntries name data count middle
    pure ⟨next, middle.property.le.trans next.property⟩

/-- A tree is behind the length of its name and its number of entries. -/
theorem tree_moves_on {offset nameLen : Nat} (nameStart : { sum : Nat // sum = offset + 4 })
    (nameEnd : { sum : Nat // sum = nameStart.val + nameLen })
    (countEnd : { sum : Nat // sum = nameEnd.val + 4 })
    (next : { next : Nat // countEnd.val ≤ next }) : offset < next.val := by
  have start := nameStart.property
  have stop := nameEnd.property
  have counted := countEnd.property
  have filled := next.property
  omega

/-- One pass of the loop over the trees; `none` is its `break`. -/
def restoreTree (data : Buffer) (offset : Nat) :
    Exec Backend BackendError (Option { next : Nat // offset < next }) := do
  let nameStart ← Exec.lift (usizeAdd offset 4)
  if nameStart.val > data.val.length then pure none
  else do
    let nameLen ← Exec.lift (u32At data offset)
    let nameEnd ← Exec.lift (usizeAdd nameStart nameLen)
    if nameEnd.val > data.val.length then Exec.throw invalidSnapshot
    else do
      let treeName ← Exec.lift (sliceAt data nameStart nameEnd)
      if ¬ ValidUtf8 treeName then Exec.throw (.serializationError "Invalid tree name")
      else
        match TreeName.ofLabel treeName with
        | none => Exec.throw (.treeNotFound treeName)
        | some name => do
          let countEnd ← Exec.lift (usizeAdd nameEnd 4)
          if countEnd.val > data.val.length then Exec.throw invalidSnapshot
          else do
            let count ← Exec.lift (u32At data nameEnd)
            let next ← restoreEntries name data count countEnd
            pure (some ⟨next, tree_moves_on nameStart nameEnd countEnd next⟩)

/-- `while offset < data.len()`. -/
def restoreFrom (data : Buffer) (offset : Nat) : Exec Backend BackendError Unit :=
  if inside : offset < data.val.length then do
    match ← restoreTree data offset with
    | none => pure ()
    | some ⟨next, further⟩ =>
      have : data.val.length - next < data.val.length - offset :=
        Nat.sub_lt_sub_left inside further
      restoreFrom data next
  else pure ()
termination_by data.val.length - offset

/-- `Backend::restore`. -/
def restore (data : Buffer) : Exec Backend BackendError Unit := restoreFrom data 0

/-! ### The decoders stay in the buffer -/

theorem decode_eq (key : Bytes) (data : Buffer) : decode key data = KeyValue.decode key data := by
  obtain ⟨data, small⟩ := data
  unfold decode KeyValue.decode
  dsimp only
  by_cases short : data.length < 32
  · rw [if_pos short, if_pos short]
  rw [if_neg short, if_neg short, bytesAt_eq (by omega) small, Outcome.ok_bind,
    bytesAt_eq (by omega) small, Outcome.ok_bind, bytesAt_eq (by omega) small, Outcome.ok_bind,
    bytesAt_eq (by omega) small, Outcome.ok_bind]
  by_cases header : data.length < 36
  · -- the last byte of the length is not there
    rw [if_pos header, u32At, bytesAt_panic (List.mem_range.mpr (by decide : 3 < 4)) (by omega)]
    rfl
  · have inside : 32 + 4 ≤ data.length := by omega
    have len : ofLeBytes (slice data 32 36) < 2 ^ 32 := u32At_lt inside
    have read : (u32At data 32 : Outcome StorageError Nat) = .ok (ofLeBytes (slice data 32 36)) :=
      u32At_eq inside small
    rw [if_neg header, read, Outcome.ok_bind, usizeAdd_eq (by omega), Outcome.ok_bind]
    dsimp only
    by_cases long : 36 + ofLeBytes (slice data 32 36) > data.length
    · rw [if_pos long, if_pos long]
    · rw [if_neg long, if_neg long, sliceAt_eq (by omega) (by omega), Outcome.ok_bind]

theorem decodeWithKey_eq (data : Buffer) : decodeWithKey data = KeyValue.decodeWithKey data := by
  obtain ⟨data, small⟩ := data
  unfold decodeWithKey KeyValue.decodeWithKey
  dsimp only
  by_cases short : data.length < 36
  · rw [if_pos short, if_pos short]
  have keyFits : ofLeBytes (slice data 32 36) < 2 ^ 32 := u32At_lt (by omega)
  rw [if_neg short, if_neg short, sliceAt_eq (by omega) (by omega), Outcome.ok_bind,
    sliceAt_eq (by omega) (by omega), Outcome.ok_bind, sliceAt_eq (by omega) (by omega),
    Outcome.ok_bind, sliceAt_eq (by omega) (by omega), Outcome.ok_bind,
    sliceAt_eq (by omega) (by omega), Outcome.ok_bind, usizeAdd_eq (by omega), Outcome.ok_bind]
  dsimp only
  generalize ofLeBytes (slice data 32 36) = keyLen at *
  rw [usizeAdd_eq (by omega), Outcome.ok_bind]
  dsimp only
  by_cases keyLong : 36 + keyLen + 4 > data.length
  · rw [if_pos keyLong, if_pos keyLong]
  have valueFits : ofLeBytes (slice data (36 + keyLen) (36 + keyLen + 4)) < 2 ^ 32 :=
    u32At_lt (by omega)
  rw [if_neg keyLong, if_neg keyLong, sliceAt_eq (by omega) (by omega), Outcome.ok_bind,
    sliceAt_eq (by omega) (by omega), Outcome.ok_bind, usizeAdd_eq (by omega), Outcome.ok_bind]
  dsimp only
  generalize ofLeBytes (slice data (36 + keyLen) (36 + keyLen + 4)) = valueLen at *
  by_cases valueLong : 36 + keyLen + 4 + valueLen > data.length
  · rw [if_pos valueLong, if_pos valueLong]
  · rw [if_neg valueLong, if_neg valueLong, sliceAt_eq (by omega) (by omega), Outcome.ok_bind]

/-! ### The parser stays in the buffer -/

section Parser

variable {data : Buffer} {offset : Nat}

theorem readU32_drop (inside : offset + 4 ≤ data.val.length) :
    readU32 (data.val.drop offset) =
      some (ofLeBytes (slice data offset (offset + 4)), data.val.drop (offset + 4)) := by
  unfold Backend.readU32
  rw [List.length_drop, if_neg (by omega), slice, Nat.add_sub_cancel_left, List.drop_drop]

/-- A field is read as it is from what is left of the buffer. -/
theorem fieldAt_cases (data : Buffer) (inside : offset ≤ data.val.length) :
    (readField (data.val.drop offset) = none ∧ fieldAt data offset = .err invalidSnapshot) ∨
      ∃ field next, readField (data.val.drop offset) = some (field, data.val.drop next.val) ∧
        fieldAt data offset = .ok (field, next) ∧ next.val ≤ data.val.length := by
  have small := data.property
  unfold fieldAt
  rw [usizeAdd_eq (by omega), Outcome.ok_bind]
  dsimp only
  by_cases short : offset + 4 > data.val.length
  · have none : readU32 (data.val.drop offset) = none := by
      rw [Backend.readU32_eq_none, List.length_drop]
      omega
    rw [if_pos short, Backend.readField, none]
    exact .inl ⟨rfl, rfl⟩
  have fits : ofLeBytes (slice data offset (offset + 4)) < 2 ^ 32 := u32At_lt (by omega)
  rw [if_neg short, u32At_eq (by omega) small, Outcome.ok_bind, usizeAdd_eq (by omega),
    Outcome.ok_bind, Backend.readField, readU32_drop (by omega), Option.bind_some]
  dsimp only
  rw [List.length_drop, List.drop_drop]
  generalize ofLeBytes (slice data offset (offset + 4)) = len at *
  by_cases long : offset + 4 + len > data.val.length
  · rw [if_pos long, if_pos (by omega)]
    exact .inl ⟨rfl, rfl⟩
  · rw [if_neg long, if_neg (by omega), sliceAt_eq (by omega) (by omega), Outcome.ok_bind, slice,
      Nat.add_sub_cancel_left]
    exact .inr ⟨_, _, rfl, rfl, by dsimp only; omega⟩

/-- A field takes four bytes at least, wherever it is read. -/
theorem fieldAt_further {field : Bytes} {next : { next : Nat // offset < next }}
    (read : fieldAt data offset = .ok (field, next)) :
    offset + 4 ≤ next.val ∧ next.val ≤ data.val.length := by
  obtain ⟨start, -, read⟩ := Outcome.bind_eq_ok read
  have isStart := start.property
  split_ifs at read with short
  obtain ⟨len, -, read⟩ := Outcome.bind_eq_ok read
  obtain ⟨stop, -, read⟩ := Outcome.bind_eq_ok read
  have isStop := stop.property
  split_ifs at read with long
  obtain ⟨bytes, -, read⟩ := Outcome.bind_eq_ok read
  obtain ⟨-, rfl⟩ := Prod.mk.inj (Outcome.ok.inj read)
  dsimp only
  omega

theorem lift_run_eq_ok {α : Type} {o : Outcome BackendError α} {a : α} {b b' : Backend}
    (ran : (Exec.lift o : Exec Backend BackendError α).run b = (.ok a, b')) : o = .ok a ∧ b = b' :=
  Prod.mk.inj ran

/-- **An entry takes eight bytes at least and ends in the buffer.** -/
theorem restoreEntry_further {name : TreeName} {next : { next : Nat // offset < next }}
    {b b' : Backend} (ran : (restoreEntry name data offset).run b = (.ok next, b')) :
    offset + 8 ≤ next.val ∧ next.val ≤ data.val.length := by
  obtain ⟨⟨key, middle⟩, _, first, ran⟩ := Exec.run_bind_eq_ok ran
  obtain ⟨⟨value, last⟩, _, second, ran⟩ := Exec.run_bind_eq_ok ran
  have low := (fieldAt_further (lift_run_eq_ok first).1).1
  have high := fieldAt_further (lift_run_eq_ok second).1
  obtain ⟨_, _, _, ran⟩ := Exec.run_bind_eq_ok ran
  obtain rfl := Outcome.ok.inj (Prod.mk.inj ran).1
  dsimp only
  omega

/-- The loop over the entries of a tree goes on by eight bytes for each. -/
theorem restoreEntries_further {name : TreeName} {count : Nat} :
    ∀ {offset : Nat} {next : { next : Nat // offset ≤ next }} {b b' : Backend},
      (restoreEntries name data count offset).run b = (.ok next, b') →
      offset + 8 * count ≤ next.val ∧ (offset ≤ data.val.length → next.val ≤ data.val.length) := by
  induction count with
  | zero =>
    intro offset next b b' ran
    obtain rfl := Outcome.ok.inj (Prod.mk.inj ran).1
    exact ⟨le_rfl, fun inside => inside⟩
  | succ count ih =>
    intro offset next b b' ran
    obtain ⟨middle, _, first, ran⟩ := Exec.run_bind_eq_ok ran
    obtain ⟨last, _, rest, ran⟩ := Exec.run_bind_eq_ok ran
    obtain rfl := Outcome.ok.inj (Prod.mk.inj ran).1
    have entry := restoreEntry_further first
    have others := ih rest
    exact ⟨by dsimp only; omega, fun _ => others.2 entry.2⟩

/-- **A tree takes eight bytes at least and ends in the buffer.** -/
theorem restoreTree_further {next : { next : Nat // offset < next }} {b b' : Backend}
    (ran : (restoreTree data offset).run b = (.ok (some next), b')) :
    offset + 8 ≤ next.val ∧ next.val ≤ data.val.length := by
  unfold restoreTree at ran
  obtain ⟨nameStart, _, _, ran⟩ := Exec.run_bind_eq_ok ran
  split at ran
  · cases ran
  obtain ⟨nameLen, _, _, ran⟩ := Exec.run_bind_eq_ok ran
  obtain ⟨nameEnd, _, _, ran⟩ := Exec.run_bind_eq_ok ran
  split at ran
  · cases ran
  obtain ⟨treeName, _, _, ran⟩ := Exec.run_bind_eq_ok ran
  split at ran
  · cases ran
  split at ran
  · cases ran
  obtain ⟨countEnd, _, _, ran⟩ := Exec.run_bind_eq_ok ran
  split at ran
  · cases ran
  rename_i inside
  obtain ⟨count, _, _, ran⟩ := Exec.run_bind_eq_ok ran
  obtain ⟨last, _, entries, ran⟩ := Exec.run_bind_eq_ok ran
  obtain rfl := Option.some.inj (Outcome.ok.inj (Prod.mk.inj ran).1)
  have isStart := nameStart.property
  have isEnd := nameEnd.property
  have isCount := countEnd.property
  have further := last.property
  exact ⟨by dsimp only; omega, (restoreEntries_further entries).2 (not_lt.mp inside)⟩

/-! #### The parser on what is left of the buffer -/

/-- Both loops over the entries fail alike, or end with the same bytes left. -/
theorem restoreEntries_cases (name : TreeName) (count : Nat) : ∀ {offset : Nat},
    offset ≤ data.val.length → ∀ b : Backend,
    (∃ e b', (restoreEntries name data count offset).run b = (.err e, b') ∧
      (Backend.restoreEntries name count (data.val.drop offset)).run b = (.err e, b')) ∨
    ∃ next b', (restoreEntries name data count offset).run b = (.ok next, b') ∧
      (Backend.restoreEntries name count (data.val.drop offset)).run b =
        (.ok (data.val.drop next.val), b') := by
  induction count with
  | zero => exact fun _ b => .inr ⟨_, b, rfl, rfl⟩
  | succ count ih =>
    intro offset inside b
    rw [restoreEntries, restoreEntry, Backend.restoreEntries]
    rcases fieldAt_cases data inside with ⟨none, fails⟩ | ⟨key, middle, found, read, inside'⟩
    · rw [none, fails]
      exact .inl ⟨_, b, rfl, rfl⟩
    rw [found, read, Exec.lift_ok_bind]
    dsimp only
    rcases fieldAt_cases data inside' with ⟨none, fails⟩ | ⟨value, next, found', read', inside''⟩
    · rw [none, fails]
      exact .inl ⟨_, b, rfl, rfl⟩
    rw [found', read', Exec.lift_ok_bind]
    dsimp only
    rcases ih inside'' (b.put name key value) with ⟨e, b', ran, ran'⟩ | ⟨last, b', ran, ran'⟩
    · exact .inl ⟨e, b', (Exec.run_bind_ok rfl).trans (Exec.run_bind_err ran), ran'⟩
    · have further : offset ≤ last.val := (middle.property.trans next.property).le.trans last.property
      exact .inr ⟨⟨last, further⟩, b', (Exec.run_bind_ok rfl).trans (Exec.run_bind_ok ran), ran'⟩

/-- One pass over the trees ends the loop, fails, or goes on, as a round on what is left does. -/
theorem restoreTree_cases (inside : offset < data.val.length) (rounds : Nat) (b : Backend) :
    ((restoreTree data offset).run b = (.ok none, b) ∧
      (Backend.restoreTrees (rounds + 1) (data.val.drop offset)).run b = (.ok (), b)) ∨
    (∃ e b', (restoreTree data offset).run b = (.err e, b') ∧
      (Backend.restoreTrees (rounds + 1) (data.val.drop offset)).run b = (.err e, b')) ∨
    ∃ next b', (restoreTree data offset).run b = (.ok (some next), b') ∧
      (Backend.restoreTrees (rounds + 1) (data.val.drop offset)).run b =
        (Backend.restoreTrees rounds (data.val.drop next.val)).run b' := by
  have small := data.property
  rw [restoreTree, usizeAdd_eq (by omega), Exec.lift_ok_bind, Backend.restoreTrees]
  dsimp only
  by_cases short : offset + 4 > data.val.length
  · have none : readU32 (data.val.drop offset) = none := by
      rw [Backend.readU32_eq_none, List.length_drop]
      omega
    rw [if_pos short, none]
    exact .inl ⟨rfl, rfl⟩
  have fits : ofLeBytes (slice data offset (offset + 4)) < 2 ^ 32 := u32At_lt (by omega)
  rw [if_neg short, u32At_eq (by omega) small, Exec.lift_ok_bind, usizeAdd_eq (by omega),
    Exec.lift_ok_bind, readU32_drop (by omega)]
  dsimp only
  rw [List.length_drop, List.drop_drop]
  generalize ofLeBytes (slice data offset (offset + 4)) = nameLen at *
  by_cases long : offset + 4 + nameLen > data.val.length
  · rw [if_pos long, if_pos (by omega)]
    exact .inr (.inl ⟨_, b, rfl, rfl⟩)
  have cut : slice data (offset + 4) (offset + 4 + nameLen) =
      (data.val.drop (offset + 4)).take nameLen := by
    rw [slice, Nat.add_sub_cancel_left]
  rw [if_neg long, if_neg (by omega), sliceAt_eq (by omega) (by omega), Exec.lift_ok_bind, cut]
  generalize (data.val.drop (offset + 4)).take nameLen = treeName
  by_cases valid : ValidUtf8 treeName
  swap
  · rw [if_pos valid, if_pos valid]
    exact .inr (.inl ⟨_, b, rfl, rfl⟩)
  rw [if_neg (not_not_intro valid), if_neg (not_not_intro valid)]
  cases TreeName.ofLabel treeName with
  | none => exact .inr (.inl ⟨_, b, rfl, rfl⟩)
  | some name =>
    dsimp only
    rw [usizeAdd_eq (by omega), Exec.lift_ok_bind]
    dsimp only
    by_cases countShort : offset + 4 + nameLen + 4 > data.val.length
    · have none : readU32 (data.val.drop (offset + 4 + nameLen)) = none := by
        rw [Backend.readU32_eq_none, List.length_drop]
        omega
      rw [if_pos countShort, none]
      exact .inr (.inl ⟨_, b, rfl, rfl⟩)
    rw [if_neg countShort, u32At_eq (by omega) small, Exec.lift_ok_bind, readU32_drop (by omega)]
    dsimp only
    generalize ofLeBytes (slice data (offset + 4 + nameLen) (offset + 4 + nameLen + 4)) = count
    rcases restoreEntries_cases name count (not_lt.mp countShort) b with
      ⟨e, b', ran, ran'⟩ | ⟨next, b', ran, ran'⟩
    · exact .inr (.inl ⟨e, b', Exec.run_bind_err ran, Exec.run_bind_err ran'⟩)
    · exact .inr (.inr ⟨_, b', Exec.run_bind_ok ran, Exec.run_bind_ok ran'⟩)

theorem restoreFrom_run (rounds : Nat) : ∀ {offset : Nat}, offset ≤ data.val.length →
    data.val.length - offset ≤ rounds → ∀ b : Backend,
    (restoreFrom data offset).run b = (Backend.restoreTrees rounds (data.val.drop offset)).run b := by
  induction rounds with
  | zero =>
    intro offset inside enough b
    rw [restoreFrom, dif_neg (by omega)]
    rfl
  | succ rounds ih =>
    intro offset inside enough b
    rw [restoreFrom]
    by_cases more : offset < data.val.length
    · rw [dif_pos more]
      rcases restoreTree_cases more rounds b with ⟨ran, ran'⟩ | ⟨e, b', ran, ran'⟩ | ⟨next, b', ran, ran'⟩
      · rw [Exec.run_bind_ok ran, ran']
        rfl
      · rw [Exec.run_bind_err ran, ran']
      · rw [Exec.run_bind_ok ran, ran']
        have further := next.property
        exact ih (restoreTree_further ran).2 (by omega) b'
    · have none : readU32 (data.val.drop offset) = none := by
        rw [Backend.readU32_eq_none, List.length_drop]
        omega
      rw [dif_neg more, Backend.restoreTrees, none]

end Parser

/-- **The parser by offset is the parser on what is left of the buffer.** -/
theorem restore_eq (data : Buffer) (b : Backend) : (restore data).run b = (Backend.restore data).run b :=
  restoreFrom_run data.val.length (Nat.zero_le _) le_rfl b

/-! ### Nothing is out of bounds -/

theorem decode_eq_panic_iff {key : Bytes} {data : Buffer} :
    decode key data = .panic ↔ 32 ≤ data.val.length ∧ data.val.length < 36 := by
  rw [decode_eq]
  unfold KeyValue.decode
  dsimp only
  split_ifs with short header
  · exact iff_of_false (fun panics => by cases panics) (by omega)
  · exact iff_of_true rfl (by omega)
  · exact iff_of_false (fun panics => by cases panics) (by omega)
  · exact iff_of_false (fun panics => by cases panics) (by omega)

theorem decodeWithKey_ne_panic (data : Buffer) : decodeWithKey data ≠ .panic := by
  rw [decodeWithKey_eq]
  unfold KeyValue.decodeWithKey
  dsimp only
  split_ifs
  all_goals exact fun panics => by cases panics

theorem restore_ne_panic (data : Buffer) (b : Backend) : ((restore data).run b).1 ≠ .panic := by
  rw [restore_eq]
  exact Backend.restoreTrees_ne_panic data.val.length data b

/-- **The decoders and the parser return, and the parser moves on, exactly if the record that `decode`
gets does not end inside the length of its value.** -/
theorem decoders_total_iff (key : Bytes) (data : Buffer) :
    (decode key data ≠ .panic ∧ decodeWithKey data ≠ .panic ∧
      (∀ b, ((restore data).run b).1 ≠ .panic) ∧
      (∀ name offset b next b', (restoreEntry name data offset).run b = (.ok next, b') →
        offset + 8 ≤ next.val ∧ next.val ≤ data.val.length) ∧
      ∀ offset b next b', (restoreTree data offset).run b = (.ok (some next), b') →
        offset + 8 ≤ next.val ∧ next.val ≤ data.val.length) ↔
      ¬ (32 ≤ data.val.length ∧ data.val.length < 36) := by
  rw [← @decode_eq_panic_iff key data]
  constructor
  · exact fun all => all.1
  · exact fun total => ⟨total, decodeWithKey_ne_panic data, restore_ne_panic data,
      fun name offset b next b' ran => restoreEntry_further ran,
      fun offset b next b' ran => restoreTree_further ran⟩

/-- A header without the length of the value. -/
theorem headerOnly_panics : decode [107] ⟨List.replicate 32 0, by decide⟩ = .panic := by decide

end Rusd.Checked
