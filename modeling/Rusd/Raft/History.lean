/-
**The logs of the leaders.**

What a run has done so far, as far as the logs go: who led which term, the log with which each leader
was elected and the log it had made of it, the log each candidate asked votes with, and how far each
node has acknowledged the log of a term. A history is kept beside the cluster and only grows.

* `Matched history l` — every prefix of `l` is a prefix of the log of the leader of its last entry's
  term. Two matched logs agree below any two entries of one index and term (`Matched.take_eq`).
* `History.Diverged` — a later leader was elected without a prefix that was acknowledged.
* `Matched.reach` — a log that is as far as another one, by last term and then by length, contains
  every prefix of it that ends in an earlier term's entry, or a later leader diverged.
-/

import Rusd.Raft.Log

namespace Rusd

open RaftLog

structure History where
  led : Set (Nat × Nat)
  base : Nat → List LogEntry
  leaderLog : Nat → List LogEntry
  asked : Nat → Nat → List LogEntry
  acks : Set (Nat × Nat × Nat)

namespace History

/-- Some node has led the term. -/
def Led (history : History) (term : Nat) : Prop := ∃ id, (id, term) ∈ history.led

/-- The node has acknowledged the first `n` entries of the term's leader. -/
def Acked (history : History) (id term n : Nat) : Prop :=
  ∃ m, n ≤ m ∧ (id, term, m) ∈ history.acks

/-- Up to the term `limit`, a later leader was elected without the first `n` entries of the term's
leader. -/
def Diverged (history : History) (term n limit : Nat) : Prop :=
  ∃ later, history.Led later ∧ term < later ∧ later ≤ limit ∧
    ¬ (history.leaderLog term).take n <+: history.base later

end History

/-- Every prefix of the log is a prefix of the log of the leader of its last entry's term. -/
def Matched (history : History) (l : List LogEntry) : Prop :=
  ∀ i entry, l[i]? = some entry →
    history.Led entry.term ∧ l.take (i + 1) <+: history.leaderLog entry.term

/-- **A sound history.** A leader's log is the log it was elected with, which holds entries of earlier
terms, followed by entries of its own term. -/
structure History.Sound (history : History) : Prop where
  positive : ∀ term, history.Led term → 0 < term
  base : ∀ term, history.Led term → history.base term <+: history.leaderLog term
  earlier : ∀ term, history.Led term → ∀ entry ∈ history.base term, entry.term < term
  own : ∀ term, history.Led term → ∀ i entry, (history.base term).length ≤ i →
    (history.leaderLog term)[i]? = some entry → entry.term = term
  indexed : ∀ term, history.Led term → IndexedFrom 0 (history.leaderLog term)
  matched : ∀ term, history.Led term → Matched history (history.leaderLog term)
  acks : ∀ id term n, (id, term, n) ∈ history.acks →
    history.Led term ∧ n ≤ (history.leaderLog term).length
  self : ∀ id term, (id, term) ∈ history.led →
    history.Acked id term (history.leaderLog term).length

/-- The history grows. -/
structure History.Grows (history later : History) : Prop where
  led : history.led ⊆ later.led
  base : ∀ term, history.Led term → later.base term = history.base term
  leaderLog : ∀ term, history.Led term → history.leaderLog term <+: later.leaderLog term
  acks : history.acks ⊆ later.acks

/-! ### Prefixes -/

section Prefixes

variable {α : Type} {l l' whole : List α} {n : Nat}

theorem take_eq_of_initial (below : l <+: l') (inside : n ≤ l.length) : l'.take n = l.take n := by
  obtain ⟨rest, rfl⟩ := below
  rw [List.take_append_of_le_length inside]

theorem prefix_of_take_of_length_le (part : l.take n <+: whole) (part' : l'.take n <+: whole)
    (inside : n ≤ l.length) (inside' : n ≤ l'.length) : l.take n = l'.take n := by
  have left := List.prefix_iff_eq_take.mp part
  have right := List.prefix_iff_eq_take.mp part'
  rw [List.length_take, Nat.min_eq_left inside] at left
  rw [List.length_take, Nat.min_eq_left inside'] at right
  rw [left, right]

end Prefixes

namespace History

variable {history later : History} {id term n m limit : Nat} {l l' : List LogEntry}

theorem Acked.mono_le (acked : history.Acked id term n) (le : m ≤ n) : history.Acked id term m := by
  obtain ⟨k, above, ack⟩ := acked
  exact ⟨k, le.trans above, ack⟩

theorem Sound.acked (sound : history.Sound) (acked : history.Acked id term n) :
    history.Led term ∧ n ≤ (history.leaderLog term).length := by
  obtain ⟨k, above, ack⟩ := acked
  obtain ⟨led, inside⟩ := sound.acks id term k ack
  exact ⟨led, above.trans inside⟩

/-- The entries of a leader's log have terms up to its own. -/
theorem Sound.term_le (sound : history.Sound) (led : history.Led term) {entry : LogEntry}
    (member : entry ∈ history.leaderLog term) : entry.term ≤ term := by
  obtain ⟨i, found⟩ := List.mem_iff_getElem?.mp member
  rcases Nat.lt_or_ge i (history.base term).length with before | after
  · obtain ⟨rest, split⟩ := sound.base term led
    rw [← split, List.getElem?_append_left before] at found
    exact (sound.earlier term led entry (List.mem_of_getElem? found)).le
  · exact (sound.own term led i entry after found).le

/-- A prefix that ends in an entry of the leader's own term goes beyond the log it was elected with. -/
theorem Sound.base_initial (sound : history.Sound) (led : history.Led term)
    (part : l <+: history.leaderLog term) {i : Nat} {entry : LogEntry} (found : l[i]? = some entry)
    (own : entry.term = term) : history.base term <+: l := by
  refine List.prefix_of_prefix_length_le (sound.base term led) part ?_
  by_contra short
  push Not at short
  have inside : i < l.length := (List.getElem?_eq_some_iff.mp found).1
  obtain ⟨rest, split⟩ := sound.base term led
  have here : (history.leaderLog term)[i]? = some entry := by
    obtain ⟨rest', split'⟩ := part
    rw [← split', List.getElem?_append_left inside, found]
  rw [← split, List.getElem?_append_left (inside.trans short)] at here
  have earlier := sound.earlier term led entry (List.mem_of_getElem? here)
  rw [own] at earlier
  exact earlier.false

theorem Diverged.mono (diverged : history.Diverged term n limit) {limit' : Nat}
    (le : limit ≤ limit') : history.Diverged term n limit' := by
  obtain ⟨bad, led, after, below, without⟩ := diverged
  exact ⟨bad, led, after, below.trans le, without⟩

namespace Grows

theorem refl (history : History) : history.Grows history :=
  ⟨subset_rfl, fun _ _ => rfl, fun _ _ => List.prefix_rfl, subset_rfl⟩

theorem led_of (grows : history.Grows later) (led : history.Led term) : later.Led term :=
  led.imp fun _ inside => grows.led inside

theorem acked (grows : history.Grows later) (acked : history.Acked id term n) :
    later.Acked id term n := by
  obtain ⟨k, above, ack⟩ := acked
  exact ⟨k, above, grows.acks ack⟩

/-- What a leader's log has grown to keeps its prefixes. -/
theorem take_eq (grows : history.Grows later) (led : history.Led term)
    (inside : n ≤ (history.leaderLog term).length) :
    (later.leaderLog term).take n = (history.leaderLog term).take n :=
  take_eq_of_initial (grows.leaderLog term led) inside

theorem getElem_eq (grows : history.Grows later) (led : history.Led term) {i : Nat}
    {entry : LogEntry} (found : (history.leaderLog term)[i]? = some entry) :
    (later.leaderLog term)[i]? = some entry := by
  obtain ⟨rest, split⟩ := grows.leaderLog term led
  rw [← split, List.getElem?_append_left (List.getElem?_eq_some_iff.mp found).1, found]

theorem matched (grows : history.Grows later) (matched : Matched history l) : Matched later l := by
  intro i entry found
  obtain ⟨led, part⟩ := matched i entry found
  exact ⟨grows.led_of led, part.trans (grows.leaderLog _ led)⟩

theorem diverged (grows : history.Grows later) (led : history.Led term)
    (inside : n ≤ (history.leaderLog term).length) (diverged : history.Diverged term n limit) :
    later.Diverged term n limit := by
  obtain ⟨bad, badLed, after, below, without⟩ := diverged
  refine ⟨bad, grows.led_of badLed, after, below, ?_⟩
  rwa [grows.take_eq led inside, grows.base bad badLed]

end Grows

end History

/-! ### Matched logs -/

section Matched

variable {history : History} {l l' : List LogEntry} {i : Nat} {entry entry' : LogEntry}

theorem Matched.nil : Matched history [] := fun i entry found => by simp at found

theorem Matched.of_initial (matched : Matched history l) (part : l' <+: l) : Matched history l' := by
  intro i entry found
  have inside : i < l'.length := (List.getElem?_eq_some_iff.mp found).1
  obtain ⟨rest, rfl⟩ := part
  obtain ⟨led, below⟩ := matched i entry (by rwa [List.getElem?_append_left inside])
  rw [List.take_append_of_le_length inside] at below
  exact ⟨led, below⟩

/-- **Log matching.** Two matched logs with entries of one term at one index agree up to it. -/
theorem Matched.take_eq (matched : Matched history l) (matched' : Matched history l')
    (found : l[i]? = some entry) (found' : l'[i]? = some entry') (same : entry.term = entry'.term) :
    l.take (i + 1) = l'.take (i + 1) := by
  obtain ⟨-, part⟩ := matched i entry found
  obtain ⟨-, part'⟩ := matched' i entry' found'
  rw [← same] at part'
  exact prefix_of_take_of_length_le part part' (List.getElem?_eq_some_iff.mp found).1
    (List.getElem?_eq_some_iff.mp found').1

/-- A matched log is a prefix of the log of the leader of its last term. -/
theorem Matched.whole (matched : Matched history l) (ne : l ≠ []) :
    history.Led (lastTermOf l) ∧ l <+: history.leaderLog (lastTermOf l) ∧
      ∃ entry, l[l.length - 1]? = some entry ∧ entry.term = lastTermOf l := by
  have positive : 0 < l.length := List.length_pos_iff.mpr ne
  have found : l[l.length - 1]? = some (l.getLast ne) := by
    rw [← List.getLast?_eq_getElem?, List.getLast?_eq_some_getLast ne]
  have last : lastTermOf l = (l.getLast ne).term := by
    rw [lastTermOf, List.getLast?_eq_some_getLast ne]
    rfl
  obtain ⟨led, part⟩ := matched _ _ found
  rw [Nat.sub_add_cancel positive, List.take_length] at part
  rw [last]
  exact ⟨led, part, _, found, rfl⟩

/-- **What an up-to-date log contains.** `near` holds a prefix that ends in an entry of the term; `far`
is at least as far as `near`. Then `far` holds it too, or a leader between the term and the last term
of `far` diverged. -/
theorem Matched.reach (sound : history.Sound) {near far : List LogEntry} (nearMatched : Matched history near)
    (farMatched : Matched history far) {term n : Nat} (positive : 0 < n)
    (ends : ∃ entry, (history.leaderLog term)[n - 1]? = some entry ∧ entry.term = term)
    (holds : (history.leaderLog term).take n <+: near)
    (ok : lastTermOf near < lastTermOf far ∨
      (lastTermOf near = lastTermOf far ∧ near.length ≤ far.length)) :
    (history.leaderLog term).take n <+: far ∨ history.Diverged term n (lastTermOf far) := by
  obtain ⟨entry, found, own⟩ := ends
  have inside : n - 1 < (history.leaderLog term).length := (List.getElem?_eq_some_iff.mp found).1
  have size : ((history.leaderLog term).take n).length = n := by
    rw [List.length_take]
    omega
  have here : near[n - 1]? = some entry := by
    obtain ⟨rest, split⟩ := holds
    rw [← split, List.getElem?_append_left (by omega), List.getElem?_take_of_lt (by omega), found]
  have ne : near ≠ [] := by
    rintro rfl
    simp at here
  obtain ⟨nearLed, nearPart, -⟩ := nearMatched.whole ne
  have before : term ≤ lastTermOf near := by
    rw [← own]
    exact sound.term_le nearLed (nearPart.subset (List.mem_of_getElem? here))
  have nonempty : far ≠ [] := by
    rintro rfl
    have positive := sound.positive _ nearLed
    rcases ok with less | ⟨same, -⟩
    · exact absurd less (Nat.not_lt_zero _)
    · rw [same] at positive
      exact absurd positive (lt_irrefl _)
  obtain ⟨farLed, farPart, last, lastFound, lastTerm⟩ := farMatched.whole nonempty
  rcases ok with less | ⟨same, short⟩
  · -- the last entry of `far` is its leader's own, so `far` contains what that leader began with
    have began := sound.base_initial farLed farPart lastFound lastTerm
    by_cases kept : (history.leaderLog term).take n <+: history.base (lastTermOf far)
    · exact .inl (kept.trans began)
    · exact .inr ⟨lastTermOf far, farLed, before.trans_lt less, le_rfl, kept⟩
  · rw [same] at nearPart
    exact .inl (holds.trans (List.prefix_of_prefix_length_le nearPart farPart short))

end Matched

/-! ### How a history grows -/

namespace History

variable {history : History} {id term n : Nat} {l : List LogEntry} {entry : LogEntry}

/-- A candidate asks for votes with its log. -/
def ask (history : History) (id term : Nat) (l : List LogEntry) : History :=
  { history with
    asked := fun candidate asked =>
      if candidate = id ∧ asked = term then l else history.asked candidate asked }

/-- A node is elected with its log, which it has then acknowledged. -/
def elect (history : History) (id term : Nat) (l : List LogEntry) : History :=
  { history with
    led := insert (id, term) history.led
    base := Function.update history.base term l
    leaderLog := Function.update history.leaderLog term l
    acks := insert (id, term, l.length) history.acks }

/-- A node acknowledges the log of a term. -/
def acknowledge (history : History) (id term n : Nat) : History :=
  { history with acks := insert (id, term, n) history.acks }

/-- A leader appends an entry to its log, and has then acknowledged it. -/
def extend (history : History) (id term : Nat) (entry : LogEntry) : History :=
  { history with
    leaderLog := Function.update history.leaderLog term (history.leaderLog term ++ [entry])
    acks := insert (id, term, (history.leaderLog term).length + 1) history.acks }

theorem ask_asked_self : (history.ask id term l).asked id term = l := if_pos ⟨rfl, rfl⟩

theorem ask_asked_of_ne {candidate term' : Nat} (other : ¬ (candidate = id ∧ term' = term)) :
    (history.ask id term l).asked candidate term' = history.asked candidate term' := if_neg other

theorem ask_grows : history.Grows (history.ask id term l) :=
  ⟨subset_rfl, fun _ _ => rfl, fun _ _ => List.prefix_rfl, subset_rfl⟩

theorem Sound.ask (sound : history.Sound) : (history.ask id term l).Sound :=
  ⟨sound.positive, sound.base, sound.earlier, sound.own, sound.indexed, sound.matched, sound.acks,
    sound.self⟩

theorem acknowledge_grows : history.Grows (history.acknowledge id term n) :=
  ⟨subset_rfl, fun _ _ => rfl, fun _ _ => List.prefix_rfl, Set.subset_insert _ _⟩

/-- What is acknowledged after an acknowledgement was so before, or is it. -/
theorem acked_acknowledge {voter term' m : Nat}
    (acked : (history.acknowledge id term n).Acked voter term' m) :
    history.Acked voter term' m ∨ (voter = id ∧ term' = term ∧ m ≤ n) := by
  obtain ⟨k, above, new | old⟩ := acked
  · cases new
    exact .inr ⟨rfl, rfl, above⟩
  · exact .inl ⟨k, above, old⟩

theorem Sound.acknowledge (sound : history.Sound) (led : history.Led term)
    (inside : n ≤ (history.leaderLog term).length) : (history.acknowledge id term n).Sound := by
  refine ⟨sound.positive, sound.base, sound.earlier, sound.own, sound.indexed, sound.matched,
    fun voter term' m ack => ?_, fun voter term' leads => acknowledge_grows.acked
      (sound.self voter term' leads)⟩
  rcases ack with new | old
  · cases new
    exact ⟨led, inside⟩
  · exact sound.acks voter term' m old

theorem led_elect {term' : Nat} (led : (history.elect id term l).Led term') :
    term' = term ∨ history.Led term' := by
  obtain ⟨other, new | old⟩ := led
  · cases new
    exact .inl rfl
  · exact .inr ⟨other, old⟩

theorem elect_base_self : (history.elect id term l).base term = l := Function.update_self ..

theorem elect_leaderLog_self : (history.elect id term l).leaderLog term = l :=
  Function.update_self ..

theorem elect_base_of_ne {term' : Nat} (ne : term' ≠ term) :
    (history.elect id term l).base term' = history.base term' :=
  Function.update_of_ne ne ..

theorem elect_leaderLog_of_ne {term' : Nat} (ne : term' ≠ term) :
    (history.elect id term l).leaderLog term' = history.leaderLog term' :=
  Function.update_of_ne ne ..

theorem elect_grows (fresh : ¬ history.Led term) : history.Grows (history.elect id term l) := by
  refine ⟨Set.subset_insert _ _, fun term' led => ?_, fun term' led => ?_, Set.subset_insert _ _⟩
  · exact elect_base_of_ne fun same => fresh (same ▸ led)
  · have ne : term' ≠ term := fun same => fresh (same ▸ led)
    rw [elect_leaderLog_of_ne ne]

theorem acked_elect {voter term' m : Nat} (acked : (history.elect id term l).Acked voter term' m) :
    history.Acked voter term' m ∨ (voter = id ∧ term' = term ∧ m ≤ l.length) := by
  obtain ⟨k, above, new | old⟩ := acked
  · cases new
    exact .inr ⟨rfl, rfl, above⟩
  · exact .inl ⟨k, above, old⟩

theorem Sound.elect (sound : history.Sound) (fresh : ¬ history.Led term) (positive : 0 < term)
    (earlier : ∀ entry ∈ l, entry.term < term) (indexed : IndexedFrom 0 l)
    (matched : Matched history l) : (history.elect id term l).Sound := by
  have grows : history.Grows (history.elect id term l) := elect_grows fresh
  have ne : ∀ {term'}, history.Led term' → term' ≠ term := fun led same => fresh (same ▸ led)
  refine ⟨fun term' led => ?_, fun term' led => ?_, fun term' led => ?_,
    fun term' led i entry => ?_, fun term' led => ?_, fun term' led => ?_,
    fun voter term' m ack => ?_, fun voter term' leads => ?_⟩
  · rcases led_elect led with rfl | led
    · exact positive
    · exact sound.positive term' led
  · rcases led_elect led with rfl | led
    · rw [elect_base_self, elect_leaderLog_self]
    · rw [elect_base_of_ne (ne led), elect_leaderLog_of_ne (ne led)]
      exact sound.base term' led
  · rcases led_elect led with rfl | led
    · rw [elect_base_self]
      exact earlier
    · rw [elect_base_of_ne (ne led)]
      exact sound.earlier term' led
  · rcases led_elect led with rfl | led
    · rw [elect_base_self, elect_leaderLog_self]
      intro beyond found
      rw [List.getElem?_eq_none beyond] at found
      cases found
    · rw [elect_base_of_ne (ne led), elect_leaderLog_of_ne (ne led)]
      exact sound.own term' led i entry
  · rcases led_elect led with rfl | led
    · rw [elect_leaderLog_self]
      exact indexed
    · rw [elect_leaderLog_of_ne (ne led)]
      exact sound.indexed term' led
  · rcases led_elect led with rfl | led
    · rw [elect_leaderLog_self]
      exact grows.matched matched
    · rw [elect_leaderLog_of_ne (ne led)]
      exact grows.matched (sound.matched term' led)
  · rcases ack with new | old
    · cases new
      rw [elect_leaderLog_self]
      exact ⟨⟨id, .inl rfl⟩, le_rfl⟩
    · obtain ⟨led, inside⟩ := sound.acks voter term' m old
      rw [elect_leaderLog_of_ne (ne led)]
      exact ⟨grows.led_of led, inside⟩
  · rcases leads with new | old
    · cases new
      rw [elect_leaderLog_self]
      exact ⟨_, le_rfl, .inl rfl⟩
    · rw [elect_leaderLog_of_ne (ne ⟨voter, old⟩)]
      exact grows.acked (sound.self voter term' old)

theorem extend_leaderLog_self :
    (history.extend id term entry).leaderLog term = history.leaderLog term ++ [entry] :=
  Function.update_self ..

theorem extend_leaderLog_of_ne {term' : Nat} (ne : term' ≠ term) :
    (history.extend id term entry).leaderLog term' = history.leaderLog term' :=
  Function.update_of_ne ne ..

theorem extend_grows : history.Grows (history.extend id term entry) := by
  refine ⟨subset_rfl, fun _ _ => rfl, fun term' _ => ?_, Set.subset_insert _ _⟩
  by_cases same : term' = term
  · rw [same, extend_leaderLog_self]
    exact List.prefix_append _ _
  · rw [extend_leaderLog_of_ne same]

theorem acked_extend {voter term' m : Nat}
    (acked : (history.extend id term entry).Acked voter term' m) :
    history.Acked voter term' m ∨
      (voter = id ∧ term' = term ∧ m ≤ (history.leaderLog term).length + 1) := by
  obtain ⟨k, above, new | old⟩ := acked
  · cases new
    exact .inr ⟨rfl, rfl, above⟩
  · exact .inl ⟨k, above, old⟩

theorem Sound.extend (sound : history.Sound) (leads : (id, term) ∈ history.led)
    (alone : ∀ other, (other, term) ∈ history.led → other = id)
    (own : entry.term = term) (index : entry.index = (history.leaderLog term).length + 1) :
    (history.extend id term entry).Sound := by
  have grows : history.Grows (history.extend id term entry) := extend_grows
  have led : history.Led term := ⟨id, leads⟩
  refine ⟨sound.positive, fun term' led' => ?_, sound.earlier, fun term' led' i entry' => ?_,
    fun term' led' => ?_, fun term' led' => ?_, fun voter term' m ack => ?_,
    fun voter term' leads' => ?_⟩
  · exact (sound.base term' led').trans (grows.leaderLog term' led')
  · by_cases same : term' = term
    · subst same
      rw [extend_leaderLog_self]
      intro beyond found
      rcases Nat.lt_or_ge i (history.leaderLog term').length with before | after
      · rw [List.getElem?_append_left before] at found
        exact sound.own term' led' i entry' beyond found
      · rw [List.getElem?_append_right after] at found
        have member := List.mem_of_getElem? found
        rw [List.mem_singleton.mp member, own]
    · rw [extend_leaderLog_of_ne same]
      exact sound.own term' led' i entry'
  · by_cases same : term' = term
    · subst same
      rw [extend_leaderLog_self]
      refine (sound.indexed term' led').append fun i entry' found => ?_
      have inside : i < 1 := (List.getElem?_eq_some_iff.mp found).1
      have member := List.mem_of_getElem? found
      rw [List.mem_singleton.mp member, index]
      omega
    · rw [extend_leaderLog_of_ne same]
      exact sound.indexed term' led'
  · by_cases same : term' = term
    · subst same
      rw [extend_leaderLog_self]
      intro i entry' found
      rcases Nat.lt_or_ge i (history.leaderLog term').length with before | after
      · rw [List.getElem?_append_left before] at found
        have old := grows.matched (sound.matched term' led') i entry' found
        rwa [List.take_append_of_le_length before]
      · have inside : i < (history.leaderLog term' ++ [entry]).length :=
          (List.getElem?_eq_some_iff.mp found).1
        rw [List.getElem?_append_right after] at found
        have member := List.mem_of_getElem? found
        rw [List.mem_singleton.mp member, own, extend_leaderLog_self]
        exact ⟨led, List.take_prefix _ _⟩
    · rw [extend_leaderLog_of_ne same]
      exact grows.matched (sound.matched term' led')
  · rcases ack with new | old
    · cases new
      rw [extend_leaderLog_self, List.length_append]
      exact ⟨led, le_rfl⟩
    · obtain ⟨led', inside⟩ := sound.acks voter term' m old
      exact ⟨led', inside.trans (grows.leaderLog term' led').length_le⟩
  · by_cases same : term' = term
    · subst same
      rw [extend_leaderLog_self, List.length_append, alone voter leads']
      exact ⟨_, le_rfl, .inl rfl⟩
    · rw [extend_leaderLog_of_ne same]
      exact grows.acked (sound.self voter term' leads')

end History

end Rusd
