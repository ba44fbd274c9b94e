import FastWasm.LebTrace

/-!
# The bounds of reading a number (`core/fw_str.h`)

Both readers compare the cursor with the end of the bytes in every round, but the cursor moves only
behind the loop: they read on until a byte announces no other one, wherever it stands. So nothing is
read from outside exactly when there is such a byte inside (`reads_inside_iff`). Their counter has
eight bits: 256 bytes that all announce another one are read for ever, and a number of 256 bytes is
taken for one of no bytes (`leb_disciplined_iff`).

The readers are written here with a log of the bytes that they read, and they return what they
return without one. How such a run can end is a matter of the bytes alone, so the cases are laid out
first (`LebOutcome`): no byte is left, the number ends at some byte within 255, it ends at the 256th
byte, or none of 256 bytes ends it. Both theorems are read off these four.
-/

namespace FastWasm

open Logged (Fallible Outcome)
open Logged.Fallible
open Leb128

/-! ## The readers

The one with signs has a traced form already. Here is the other, and what the two have in common. -/

/-- The `while(1)` of `fw_str_leb_getu`, for at most `n` more rounds: `_round` behind the byte that
ends the number, and the bits collected. A round reads its byte twice. -/
def tracedGetuRounds (mem : Mem) : ℕ → UInt8 → UInt8 → UInt64 → Traced (UInt8 × UInt64)
  | 0, _, _, _ => halt .hang
  | n + 1, round, shift, res => do
    let str ← get
    check (str.pos < str.last)
    emit (.read (str.pos + round.toNat))
    emit (.shift shift)
    emit (.read (str.pos + round.toNat))
    let byte := mem (str.pos + round.toNat)
    let res := res ||| intShl byte shift
    if byte &&& 0x80 = 0 then pure (round + 1, res)
    else tracedGetuRounds mem n (round + 1) (shift + 7) res

/-- `fw_str_leb_getu`, with the bytes that it reads in its log. -/
def tracedGetu (mem : Mem) (maxbit : ℕ) : Traced UInt64 := do
  let out ← tracedGetuRounds mem 256 0 0 0
  check (¬ out.1.toNat > (maxbit + 7 - 1) / 7)
  modify fun str => { str with pos := str.pos + out.1.toNat }
  pure out.2

/-- The readers of numbers, unsigned and signed. They share what is said in this module, since they
differ in what they collect and not in what they read. -/
inductive LebReader where
  /-- `fw_str_leb_getu` -/
  | getu
  /-- `fw_str_leb_gets` -/
  | gets

namespace LebReader

/-- What the reader returns. -/
def read : LebReader → Mem → FwStr → ℕ → LebRead
  | getu => fwStrLebGetu
  | gets => fwStrLebGets

/-- The reader, with what it does. -/
def traced : LebReader → Mem → ℕ → Traced UInt64
  | getu => tracedGetu
  | gets => tracedGets

/-- The loop of the reader ends after some number of rounds. -/
def Ends : LebReader → Mem → FwStr → Prop
  | getu, mem, str => ∃ n out, (tracedGetuRounds mem n 0 0 0 str).res = .ok out
  | gets, mem, str => ∃ n out, (tracedRounds mem n ⟨0, 0, 0, 0⟩ str).res = .ok out

end LebReader

variable {mem : Mem} {str str' : FwStr} {r : LebReader} {w : ℕ}

/-- One round, which reads its byte twice and goes on if there is another one. -/
theorem tracedGetuRounds_succ (hlt : str.pos < str.last) (n : ℕ) (round shift : UInt8)
    (res : UInt64) :
    tracedGetuRounds mem (n + 1) round shift res str =
      let byte := mem (str.pos + round.toNat)
      let rest := (if byte &&& 0x80 = 0 then pure (round + 1, res ||| intShl byte shift)
        else tracedGetuRounds mem n (round + 1) (shift + 7) (res ||| intShl byte shift) :
          Traced (UInt8 × UInt64)) str
      ⟨.read (str.pos + round.toNat) :: .shift shift :: .read (str.pos + round.toNat) :: rest.log,
        rest.res⟩ :=
  bounded_of_lt hlt

/-- A round that finds no byte left. -/
theorem tracedGetuRounds_of_ge (hge : str.pos ≥ str.last) (n : ℕ) (round shift : UInt8)
    (res : UInt64) :
    tracedGetuRounds mem (n + 1) round shift res str = ⟨[], .ok (none, str)⟩ :=
  bounded_of_ge hge

/-- The rounds end as those that log nothing do, when a byte is left at the start. -/
theorem tracedGetuRounds_res (hlt : str.pos < str.last) (n : ℕ) (round shift : UInt8)
    (res : UInt64) :
    (tracedGetuRounds mem n round shift res str).res =
      (fwStrLebGetuRounds mem str.pos n round shift res).elim (.error .hang) fun out =>
        .ok (some out, str) := by
  induction n generalizing round shift res with
  | zero => rfl
  | succ n ih =>
    rw [fwStrLebGetuRounds, tracedGetuRounds_succ hlt]
    by_cases hend : mem (str.pos + round.toNat) &&& 0x80 = 0
    · simp only [if_pos hend]
      rfl
    · simp only [if_neg hend]
      exact ih _ _ _

/-- `tracedGetu` is `fw_str_leb_getu`, but for what it logs. -/
theorem tracedGetu_res (mem : Mem) (maxbit : ℕ) (str : FwStr) :
    (tracedGetu mem maxbit str).res = (Parse.ofLeb (fwStrLebGetu mem · maxbit) str).res := by
  rw [tracedGetu, Parse.ofLeb, fwStrLebGetu]
  rcases Nat.lt_or_ge str.pos str.last with hlt | hge
  · have hrounds := @tracedGetuRounds_res mem str hlt 256 0 0 0
    rw [if_neg (Nat.not_le.mpr hlt)]
    rcases hr : fwStrLebGetuRounds mem str.pos 256 0 0 0 with _ | ⟨round, res⟩
    · rw [hr] at hrounds
      rw [bind_res_of_halts hrounds]
    · rw [hr] at hrounds
      rw [bind_res_of_runs hrounds]
      by_cases hround : round.toNat > (maxbit + 7 - 1) / 7
      · have hcheck : (check (¬ round.toNat > (maxbit + 7 - 1) / 7) : Traced PUnit) = fail :=
          if_neg (not_not.mpr hround)
        simp only [if_pos hround, hcheck]
        rfl
      · simp only [if_neg hround]
        rw [bind_res_of_runs (a := ⟨⟩) (runs_check.mpr ⟨hround, rfl⟩)]
        rfl
  · rw [if_pos hge, bind_res_of_fails (congrArg Outcome.res (tracedGetuRounds_of_ge hge 255 _ _ _))]

theorem LebReader.traced_res (r : LebReader) (mem : Mem) (w : ℕ) (str : FwStr) :
    (r.traced mem w str).res = (Parse.ofLeb (r.read mem · w) str).res := by
  cases r with
  | getu => exact tracedGetu_res mem w str
  | gets => exact tracedGets_res mem w str

/-! ## Where a number ends

The bytes are looked at without a reader: which of them is the first that announces no other. -/

/-- Byte number `k` from `pos` on is the first one that announces no other. -/
def NumberEnds (mem : Mem) (pos k : ℕ) : Prop :=
  mem (pos + k) < 0x80 ∧ ∀ j < k, 0x80 ≤ mem (pos + j)

theorem NumberEnds.le {pos k i : ℕ} (h : NumberEnds mem pos k) (hi : mem (pos + i) < 0x80) :
    k ≤ i :=
  Nat.le_of_not_lt fun hlt => UInt8.not_lt.mpr (h.2 i hlt) hi

theorem NumberEnds.unique {pos k k' : ℕ} (h : NumberEnds mem pos k) (h' : NumberEnds mem pos k') :
    k = k' :=
  Nat.le_antisymm (h.le h'.1) (h'.le h.1)

/-- A byte that announces no other ends the number, if none before it does. -/
theorem exists_numberEnds {pos i : ℕ} (h : mem (pos + i) < 0x80) :
    ∃ k ≤ i, NumberEnds mem pos k :=
  exists_first h

/-- Rounds that do not end have passed over bytes that all announce another one. By induction on the
rounds; with at most 256 of them the counter has not wrapped while a byte is read. -/
theorem rounds_eq_none {pos : ℕ} :
    ∀ {n : ℕ} {round shift : UInt8} {res : UInt64}, round.toNat + n ≤ 256 →
      fwStrLebGetuRounds mem pos n round shift res = none →
      ∀ j < n, 0x80 ≤ mem (pos + round.toNat + j) := by
  intro n
  induction n with
  | zero => exact fun _ _ j hj => absurd hj (Nat.not_lt_zero j)
  | succ n ih =>
    intro round shift res hn h j hj
    rw [fwStrLebGetuRounds] at h
    by_cases hb : mem (pos + round.toNat) &&& 0x80 = 0
    · rw [if_pos hb] at h
      cases h
    · rw [if_neg hb] at h
      have hhigh : 0x80 ≤ mem (pos + round.toNat) :=
        UInt8.not_lt.mp fun hlt => hb ((and_high_eq_zero _).mpr hlt)
      cases j with
      | zero => exact hhigh
      | succ j =>
        have hr : (round + 1).toNat = round.toNat + 1 := round_succ (by omega)
        have hrest := ih (by omega) h j (Nat.lt_of_succ_lt_succ hj)
        rwa [hr, Nat.add_assoc _ _ j, Nat.add_assoc _ 1, Nat.add_comm 1 j, ← Nat.add_assoc] at hrest

/-- With 256 such bytes they never end: the counter is back at 0 then. -/
theorem rounds_of_continued {pos : ℕ} (h : ∀ i < 256, 0x80 ≤ mem (pos + i)) (n : ℕ)
    (round shift : UInt8) (res : UInt64) :
    fwStrLebGetuRounds mem pos n round shift res = none := by
  induction n generalizing round shift res with
  | zero => rfl
  | succ n ih =>
    have hb : ¬ mem (pos + round.toNat) &&& 0x80 = 0 := fun hz =>
      absurd ((and_high_eq_zero _).mp hz) (UInt8.not_lt.mpr (h _ round.toNat_lt))
    rw [fwStrLebGetuRounds, if_neg hb]
    exact ih _ _ _

/-- With a last one among the first 256 they end there; behind all 256 the counter is 0. -/
theorem rounds_of_ends {pos k : ℕ} (hk : k < 256) (h : NumberEnds mem pos k) :
    ∃ round res, fwStrLebGetuRounds mem pos 256 0 0 0 = some (round, res) ∧
      round.toNat = (k + 1) % 256 := by
  have hzero : pos + (0 : UInt8).toNat = pos := rfl
  cases hr : fwStrLebGetuRounds mem pos 256 0 0 0 with
  | none => exact absurd h.1 (UInt8.not_lt.mpr (rounds_eq_none (by decide) hr k hk))
  | some out =>
    obtain ⟨round, res⟩ := out
    obtain ⟨k', -, hall, hend, hround⟩ := rounds_eq_some (by decide) hr
    rw [hzero] at hall hend
    obtain rfl : k' = k := NumberEnds.unique ⟨hend, hall⟩ h
    refine ⟨round, res, rfl, hround.trans ?_⟩
    rw [UInt8.toNat_zero, Nat.zero_add]

/-- The number ends somewhere among the first 256 bytes, or all of them announce another one. -/
theorem numberEnds_or_continued (mem : Mem) (pos : ℕ) :
    (∃ k < 256, NumberEnds mem pos k) ∨ ∀ i < 256, 0x80 ≤ mem (pos + i) := by
  by_cases h : ∀ i < 256, 0x80 ≤ mem (pos + i)
  · exact .inr h
  · obtain ⟨i, hi, hlt⟩ : ∃ i < 256, mem (pos + i) < 0x80 := by
      simpa only [not_forall, UInt8.not_le, exists_prop] using h
    obtain ⟨k, hk, hends⟩ := exists_numberEnds hlt
    exact .inl ⟨k, hk.trans_lt hi, hends⟩

/-! ## What is returned

Four cases, of which the source expects two. -/

/-- How reading a number ends, by where the number ends. -/
inductive LebOutcome (mem : Mem) (str : FwStr) (w : ℕ) : LebRead → Prop
  /-- no byte is left -/
  | empty (hge : str.last ≤ str.pos) : LebOutcome mem str w .strErr
  /-- no byte ends the number before the counter wraps -/
  | endless (hlt : str.pos < str.last) (hall : ∀ i < 256, 0x80 ≤ mem (str.pos + i)) :
    LebOutcome mem str w .hang
  /-- the number is too long, by the counter -/
  | long {k : ℕ} (hlt : str.pos < str.last) (hk : k < 256) (hends : NumberEnds mem str.pos k)
    (hlong : (w + 7 - 1) / 7 < (k + 1) % 256) : LebOutcome mem str w .strErr
  /-- it is not, and the cursor moves as far as the counter says -/
  | short {k : ℕ} {v : UInt64} (hlt : str.pos < str.last) (hk : k < 256)
    (hends : NumberEnds mem str.pos k) (hshort : (k + 1) % 256 ≤ (w + 7 - 1) / 7) :
    LebOutcome mem str w (.got v ⟨str.pos + (k + 1) % 256, str.last⟩)

namespace LebReader

theorem read_of_ge (hge : str.last ≤ str.pos) : r.read mem str w = .strErr := by
  cases r <;> exact if_pos hge

theorem read_of_none (hlt : str.pos < str.last)
    (hr : fwStrLebGetuRounds mem str.pos 256 0 0 0 = none) : r.read mem str w = .hang := by
  cases r with
  | getu => rw [read, fwStrLebGetu, if_neg (Nat.not_le.mpr hlt), hr]
  | gets => rw [read, fwStrLebGets, if_neg (Nat.not_le.mpr hlt), hr]

theorem read_of_some {round : UInt8} {res : UInt64} (hlt : str.pos < str.last)
    (hr : fwStrLebGetuRounds mem str.pos 256 0 0 0 = some (round, res)) :
    ∃ v, r.read mem str w = if round.toNat > (w + 7 - 1) / 7 then .strErr
      else .got v ⟨str.pos + round.toNat, str.last⟩ := by
  cases r with
  | getu =>
    rw [read, fwStrLebGetu, if_neg (Nat.not_le.mpr hlt), hr]
    exact ⟨_, rfl⟩
  | gets =>
    rw [read, fwStrLebGets, if_neg (Nat.not_le.mpr hlt), hr]
    exact ⟨_, rfl⟩

theorem read_of_long {k : ℕ} (hlt : str.pos < str.last) (hk : k < 256)
    (h : NumberEnds mem str.pos k) (hlong : (w + 7 - 1) / 7 < (k + 1) % 256) :
    r.read mem str w = .strErr := by
  obtain ⟨round, res, hr, hround⟩ := rounds_of_ends hk h
  obtain ⟨v, hv⟩ := read_of_some (r := r) (w := w) hlt hr
  rw [hv, hround, if_pos hlong]

theorem read_of_short {k : ℕ} (hlt : str.pos < str.last) (hk : k < 256)
    (h : NumberEnds mem str.pos k) (hshort : (k + 1) % 256 ≤ (w + 7 - 1) / 7) :
    ∃ v, r.read mem str w = .got v ⟨str.pos + (k + 1) % 256, str.last⟩ := by
  obtain ⟨round, res, hr, hround⟩ := rounds_of_ends hk h
  obtain ⟨v, hv⟩ := read_of_some (r := r) (w := w) hlt hr
  refine ⟨v, ?_⟩
  rw [hv, hround, if_neg (Nat.not_lt.mpr hshort)]

/-- Both readers end alike, whatever they collect. -/
theorem read_outcome (r : LebReader) (mem : Mem) (str : FwStr) (w : ℕ) :
    LebOutcome mem str w (r.read mem str w) := by
  rcases Nat.lt_or_ge str.pos str.last with hlt | hge
  · rcases numberEnds_or_continued mem str.pos with ⟨k, hk, hends⟩ | hall
    · rcases Nat.lt_or_ge ((w + 7 - 1) / 7) ((k + 1) % 256) with hlong | hshort
      · rw [read_of_long hlt hk hends hlong]
        exact .long hlt hk hends hlong
      · obtain ⟨v, hv⟩ := read_of_short (r := r) hlt hk hends hshort
        rw [hv]
        exact .short hlt hk hends hshort
    · rw [read_of_none hlt (rounds_of_continued hall 256 0 0 0)]
      exact .endless hlt hall
  · rw [read_of_ge hge]
    exact .empty hge

theorem runs_traced {v : UInt64} :
    Runs (r.traced mem w) str v str' ↔ r.read mem str w = .got v str' := by
  rw [Runs, traced_res]
  exact runs_ofLeb

theorem fails_traced :
    (r.traced mem w str).res = .ok (none, str') ↔ r.read mem str w = .strErr ∧ str' = str := by
  rw [traced_res, Parse.ofLeb]
  cases r.read mem str w <;> simp [eq_comm]

theorem halts_traced {h : Halt} :
    Halts (r.traced mem w) str h ↔ r.read mem str w = .hang ∧ h = .hang := by
  rw [Halts, traced_res, Parse.ofLeb]
  cases r.read mem str w <;> simp [eq_comm]

end LebReader

/-! ## What is read

An address is read if and only if all bytes before it, from the cursor on, announce another one. -/

/-- The address is reached from `p` on in fewer than `n` steps over bytes that announce another
one. -/
def Reached (mem : Mem) (p n addr : ℕ) : Prop :=
  ∃ i < n, (∀ j < i, 0x80 ≤ mem (p + j)) ∧ addr = p + i

section Reads

variable {p n addr : ℕ}

theorem not_reached_zero : ¬ Reached mem p 0 addr := by
  rintro ⟨i, hi, -⟩
  exact Nat.not_lt_zero i hi

/-- The first step, and those behind it. -/
theorem reached_succ :
    Reached mem p (n + 1) addr ↔ addr = p ∨ 0x80 ≤ mem p ∧ Reached mem (p + 1) n addr := by
  refine ⟨?_, ?_⟩
  · rintro ⟨i, hi, hall, rfl⟩
    cases i with
    | zero => exact .inl rfl
    | succ i =>
      refine .inr ⟨hall 0 (Nat.succ_pos i), i, Nat.lt_of_succ_lt_succ hi, fun j hj => ?_, ?_⟩
      · rw [Nat.add_assoc, Nat.add_comm 1]
        exact hall (j + 1) (Nat.succ_lt_succ hj)
      · rw [Nat.add_assoc, Nat.add_comm 1]
  · rintro (rfl | ⟨hp, i, hi, hall, rfl⟩)
    · exact ⟨0, Nat.succ_pos n, fun j hj => absurd hj (Nat.not_lt_zero j), rfl⟩
    · refine ⟨i + 1, Nat.succ_lt_succ hi, fun j hj => ?_, by rw [Nat.add_assoc, Nat.add_comm 1]⟩
      cases j with
      | zero => exact hp
      | succ j =>
        have hj := hall j (Nat.lt_of_succ_lt_succ hj)
        rwa [Nat.add_assoc, Nat.add_comm 1] at hj

/-- The step that a round makes, while there are rounds. -/
theorem reached_round {pos : ℕ} {round : UInt8} (h : round.toNat + (n + 1) ≤ 256) :
    Reached mem (pos + (round + 1).toNat) n addr ↔ Reached mem (pos + round.toNat + 1) n addr := by
  rcases Nat.eq_zero_or_pos n with rfl | hn
  · exact iff_of_false not_reached_zero not_reached_zero
  · rw [round_succ (by omega), Nat.add_assoc]

/-- What is read behind a byte, when the byte announces another one. -/
theorem mem_log_rest {α : Type} {byte : UInt8} {a : α} {m : Traced α} {e : LebEvent} :
    e ∈ ((if byte &&& 0x80 = 0 then pure a else m : Traced α) str).log ↔
      0x80 ≤ byte ∧ e ∈ (m str).log := by
  rw [mem_log_ite, mem_log_pure, and_false, false_or, and_high_eq_zero, UInt8.not_lt]

theorem next_bound {round : UInt8} (h : round.toNat + (n + 1) ≤ 256) :
    (round + 1).toNat + n ≤ 256 := by
  have hlt := (round + 1).toNat_lt
  rcases Nat.eq_zero_or_pos n with rfl | hn
  · exact hlt.le
  · rw [round_succ (by omega)]
    omega

theorem read_mem_tracedGetuRounds (hlt : str.pos < str.last) {round shift : UInt8} {res : UInt64}
    (h : round.toNat + n ≤ 256) :
    .read addr ∈ (tracedGetuRounds mem n round shift res str).log ↔
      Reached mem (str.pos + round.toNat) n addr := by
  induction n generalizing round shift res with
  | zero => exact iff_of_false List.not_mem_nil not_reached_zero
  | succ n ih =>
    rw [tracedGetuRounds_succ hlt, reached_succ]
    simp only [List.mem_cons, LebEvent.read.injEq, reduceCtorEq, false_or, or_self_left]
    refine or_congr_right ?_
    rw [mem_log_rest, ih (next_bound h), reached_round h]

theorem read_mem_tracedRounds (hlt : str.pos < str.last) {vars : LebVars}
    (h : vars.round.toNat + n ≤ 256) :
    .read addr ∈ (tracedRounds mem n vars str).log ↔
      Reached mem (str.pos + vars.round.toNat) n addr := by
  induction n generalizing vars with
  | zero => exact iff_of_false List.not_mem_nil not_reached_zero
  | succ n ih =>
    rw [tracedRounds_succ hlt, reached_succ]
    simp only [List.mem_cons, LebEvent.read.injEq, reduceCtorEq, false_or]
    refine or_congr_right ?_
    rw [mem_log_rest, ih (next_bound h)]
    exact and_congr_right fun _ => reached_round h

/-- The bytes that a reader reads: those up to the end of the number, 256 at most. A loop that never
ends reads the same 256 bytes over and over. -/
theorem LebReader.mem_log_read :
    .read addr ∈ (r.traced mem w str).log ↔ str.pos < str.last ∧ Reached mem str.pos 256 addr := by
  have hzero : str.pos + (0 : UInt8).toNat = str.pos := rfl
  rcases Nat.lt_or_ge str.pos str.last with hlt | hge
  · rw [and_iff_right hlt]
    cases r with
    | getu =>
      have hrounds : .read addr ∈ (tracedGetuRounds mem 256 0 0 0 str).log ↔ _ :=
        read_mem_tracedGetuRounds hlt (by decide)
      rw [hzero] at hrounds
      rw [← hrounds, LebReader.traced, tracedGetu]
      simp only [mem_log_bind, mem_log_check, mem_log_modify, mem_log_pure, and_false,
        exists_false, or_false]
    | gets =>
      have hrounds : .read addr ∈ (tracedRounds mem 256 ⟨0, 0, 0, 0⟩ str).log ↔ _ :=
        read_mem_tracedRounds hlt (by decide)
      rw [hzero] at hrounds
      rw [← hrounds, LebReader.traced, tracedGets]
      simp only [mem_log_bind, mem_log_check, mem_log_ite, mem_log_emit, mem_log_modify,
        mem_log_pure, reduceCtorEq, and_false, exists_false, or_false]
  · refine iff_of_false ?_ fun h => Nat.not_lt.mpr hge h.1
    cases r with
    | getu =>
      rw [LebReader.traced, tracedGetu, mem_log_bind, tracedGetuRounds_of_ge hge]
      simp [Runs, tracedGetuRounds_of_ge hge]
    | gets =>
      rw [LebReader.traced, tracedGets, mem_log_bind, tracedRounds_of_ge hge]
      simp [Runs, tracedRounds_of_ge hge]

end Reads

/-! ## Whether the loop ends

With 256 bytes that all announce another one the counter is back where it was, and so is the reader.
-/

namespace LebReader

theorem ends_of_ge (hge : str.last ≤ str.pos) : r.Ends mem str := by
  cases r with
  | getu => exact ⟨1, _, congrArg Outcome.res (tracedGetuRounds_of_ge hge 0 _ _ _)⟩
  | gets => exact ⟨1, _, congrArg Outcome.res (tracedRounds_of_ge hge 0 _)⟩

theorem ends_of_numberEnds {k : ℕ} (hlt : str.pos < str.last) (hk : k < 256)
    (h : NumberEnds mem str.pos k) : r.Ends mem str := by
  obtain ⟨round, res, hr, -⟩ := rounds_of_ends hk h
  cases r with
  | getu =>
    have hrounds := @tracedGetuRounds_res mem str hlt 256 0 0 0
    rw [hr] at hrounds
    exact ⟨256, _, hrounds⟩
  | gets => exact ⟨256, _, (tracedRounds_res hlt 256 ⟨0, 0, 0, 0⟩).2 round res hr⟩

/-- However many rounds there are, the loop is not at its end behind them. -/
theorem not_ends_of_continued (hlt : str.pos < str.last)
    (h : ∀ i < 256, 0x80 ≤ mem (str.pos + i)) : ¬ r.Ends mem str := by
  cases r with
  | getu =>
    rintro ⟨n, out, hout⟩
    have hrounds := @tracedGetuRounds_res mem str hlt n 0 0 0
    rw [rounds_of_continued h] at hrounds
    cases hrounds.symm.trans hout
  | gets =>
    rintro ⟨n, out, hout⟩
    have hrounds := (tracedRounds_res hlt n ⟨0, 0, 0, 0⟩).1 (rounds_of_continued h n 0 0 0)
    cases hrounds.symm.trans hout

/-- The reader halts where its loop never ends, so that 256 rounds are enough. -/
theorem halts_iff {h : Halt} : Halts (r.traced mem w) str h ↔ ¬ r.Ends mem str ∧ h = .hang := by
  rw [halts_traced]
  refine and_congr_left fun _ => ?_
  have hout := r.read_outcome mem str w
  generalize r.read mem str w = out at hout
  cases hout with
  | empty hge => exact iff_of_false (fun h => by cases h) (not_not.mpr (ends_of_ge hge))
  | endless hlt hall => exact iff_of_true rfl (not_ends_of_continued hlt hall)
  | long hlt hk hends hlong =>
    exact iff_of_false (fun h => by cases h) (not_not.mpr (ends_of_numberEnds hlt hk hends))
  | short hlt hk hends hshort =>
    exact iff_of_false (fun h => by cases h) (not_not.mpr (ends_of_numberEnds hlt hk hends))

end LebReader

/-! ## Inside the buffer

If some byte of the buffer ends the number, reading stops there. If none does, the byte behind the
buffer is read as well. -/

/-- Reading a number stays inside the buffer: every byte that is read lies before its end, the
cursor does not pass it, and a number that it cuts off is an error. -/
structure StaysInside (m : Traced UInt64) (mem : Mem) (str : FwStr) : Prop where
  /-- no byte at or behind the end is read -/
  reads : ∀ addr, .read addr ∈ (m str).log → addr < str.last
  /-- the cursor does not pass the end -/
  cursor : ∀ v str', Runs m str v str' → str'.last = str.last ∧ str'.pos ≤ str'.last
  /-- a number that is cut off by the end is an error, and the cursor stays -/
  cutOff : (∀ addr, str.pos ≤ addr → addr < str.last → 0x80 ≤ mem addr) →
    (m str).res = .ok (none, str)

/-- Without bytes nothing is read, and the cursor stays. -/
theorem staysInside_of_eq (heq : str.pos = str.last) : StaysInside (r.traced mem w) mem str where
  reads addr h := absurd heq (LebReader.mem_log_read.mp h).1.ne
  cursor v str' h := by
    rw [LebReader.runs_traced, LebReader.read_of_ge heq.ge] at h
    cases h
  cutOff _ := LebReader.fails_traced.mpr ⟨LebReader.read_of_ge heq.ge, rfl⟩

/-- The rounds go no further than a byte that announces no other. -/
theorem staysInside_of_ends {addr : ℕ} (hge : str.pos ≤ addr) (hlt : addr < str.last)
    (hend : mem addr < 0x80) : StaysInside (r.traced mem w) mem str where
  reads := by
    intro addr' h
    obtain ⟨-, i, -, hall, rfl⟩ := LebReader.mem_log_read.mp h
    refine lt_of_le_of_lt (Nat.le_of_not_lt fun hi => ?_) hlt
    obtain ⟨j, rfl⟩ := Nat.exists_eq_add_of_le hge
    exact absurd hend (UInt8.not_lt.mpr (hall j (Nat.lt_of_add_lt_add_left hi)))
  cursor := by
    intro v str' h
    obtain ⟨j, rfl⟩ := Nat.exists_eq_add_of_le hge
    have hout := r.read_outcome mem str w
    rw [LebReader.runs_traced.mp h] at hout
    cases hout with
    | @short k _ _ _ hends _ =>
      have hk : k ≤ j := hends.le hend
      have hmod : (k + 1) % 256 ≤ k + 1 := Nat.mod_le _ _
      refine ⟨rfl, ?_⟩
      change str.pos + (k + 1) % 256 ≤ str.last
      omega
  cutOff h := absurd hend (UInt8.not_lt.mpr (h addr hge hlt))

/-- Where every byte up to the end announces another one, the byte behind them is read, or the
loop does not end. -/
theorem not_staysInside (hlt : str.pos < str.last)
    (hall : ∀ addr, str.pos ≤ addr → addr < str.last → 0x80 ≤ mem addr) :
    ¬ StaysInside (r.traced mem w) mem str := by
  intro h
  have hcont : ∀ i, str.pos + i < str.last → 0x80 ≤ mem (str.pos + i) := fun i =>
    hall _ (Nat.le_add_right _ _)
  rcases Nat.lt_or_ge (str.last - str.pos) 256 with hshort | hlong
  · have hread : Reached mem str.pos 256 str.last :=
      ⟨str.last - str.pos, hshort, fun j hj => hcont j (Nat.add_lt_of_lt_sub' hj),
        (Nat.add_sub_cancel' hlt.le).symm⟩
    exact lt_irrefl _ (h.reads _ (LebReader.mem_log_read.mpr ⟨hlt, hread⟩))
  · have hnone := rounds_of_continued (fun i hi => hcont i (by omega)) 256 0 0 0
    have hread := (LebReader.fails_traced.mp (h.cutOff hall)).1
    rw [LebReader.read_of_none hlt hnone] at hread
    cases hread

/-- `fw_str_leb_getu` and `fw_str_leb_gets` stay inside the buffer if and only if it is at its end
or holds a byte that announces no other. The memory, the cursor and the width are any. -/
theorem reads_inside_iff (r : LebReader) (mem : Mem) (w : ℕ) {str : FwStr}
    (hle : str.pos ≤ str.last) :
    StaysInside (r.traced mem w) mem str ↔
      str.pos = str.last ∨ ∃ addr, str.pos ≤ addr ∧ addr < str.last ∧ mem addr < 0x80 := by
  refine ⟨fun h => ?_, ?_⟩
  · by_contra hno
    obtain ⟨hne, hnone⟩ := not_or.mp hno
    refine not_staysInside (lt_of_le_of_ne hle hne) (fun addr hge hlt => ?_) h
    exact UInt8.not_lt.mp fun hend => hnone ⟨addr, hge, hlt, hend⟩
  · rintro (heq | ⟨addr, hge, hlt, hend⟩)
    · exact staysInside_of_eq heq
    · exact staysInside_of_ends hge hlt hend

/-- 5 in two bytes, the second one padding, is read inside of them. -/
theorem twoBytes_staysInside :
    StaysInside (LebReader.getu.traced (memOf [0x85, 0x00]) 32) (memOf [0x85, 0x00]) ⟨0, 2⟩ :=
  (reads_inside_iff .getu (memOf [0x85, 0x00]) 32 (by decide)).mpr
    (.inr ⟨1, by decide, by decide, by decide⟩)

/-- A number is cut off behind its first byte: both readers read the next one. -/
theorem cutNumber_reads_outside :
    ¬ StaysInside (LebReader.getu.traced (memOf [0x80, 0x05]) 32) (memOf [0x80, 0x05]) ⟨0, 1⟩ ∧
      ¬ StaysInside (LebReader.gets.traced (memOf [0x80, 0x05]) 32) (memOf [0x80, 0x05]) ⟨0, 1⟩ :=
  have hall : ∀ addr, 0 ≤ addr → addr < 1 → 0x80 ≤ memOf [0x80, 0x05] addr := by decide
  ⟨not_staysInside (by decide) hall, not_staysInside (by decide) hall⟩

/-! ## The length of a number

The counter is compared with what the width allows, and the cursor is moved by the counter. Both are
right as long as the counter is. -/

/-- Reading a number ends, and goes by the length of what is read: a number of more bytes than its
width allows is refused, and the cursor is moved over all the bytes of one that is not. -/
structure LebDisciplined (r : LebReader) (mem : Mem) (w : ℕ) (str : FwStr) : Prop where
  /-- the loop ends -/
  ends : r.Ends mem str
  /-- a number has at least one byte and at most one for seven bits -/
  consumed : ∀ v str', Runs (r.traced mem w) str v str' →
    str.pos + 1 ≤ str'.pos ∧ str'.pos ≤ str.pos + (w + 7 - 1) / 7
  /-- an error leaves the cursor -/
  failed : ∀ str', (r.traced mem w str).res = .ok (none, str') → str' = str
  /-- more bytes that announce another one are an error -/
  rejected : ∀ n > (w + 7 - 1) / 7, (∀ i < n, 0x80 ≤ mem (str.pos + i)) →
    (r.traced mem w str).res = .ok (none, str)

/-- Without bytes there is an error, and the cursor stays. -/
theorem lebDisciplined_of_ge (hge : str.last ≤ str.pos) : LebDisciplined r mem w str where
  ends := LebReader.ends_of_ge hge
  consumed v str' h := by
    rw [LebReader.runs_traced, LebReader.read_of_ge hge] at h
    cases h
  failed str' h := (LebReader.fails_traced.mp h).2
  rejected _ _ _ := LebReader.fails_traced.mpr ⟨LebReader.read_of_ge hge, rfl⟩

/-- Behind at most 255 bytes the counter is their number, so the length test compares the right
thing, and a read that succeeds moves the cursor over all of them. -/
theorem lebDisciplined_of_ends {k : ℕ} (hlt : str.pos < str.last) (hk : k < 255)
    (h : NumberEnds mem str.pos k) : LebDisciplined r mem w str where
  ends := LebReader.ends_of_numberEnds hlt (hk.trans (by decide)) h
  consumed := by
    intro v str' hrun
    have hout := r.read_outcome mem str w
    rw [LebReader.runs_traced.mp hrun] at hout
    cases hout with
    | short _ _ hends hshort =>
      obtain rfl := h.unique hends
      have hmod : (k + 1) % 256 = k + 1 := Nat.mod_eq_of_lt (by omega)
      rw [hmod] at hshort ⊢
      exact ⟨Nat.add_le_add_left (Nat.le_add_left 1 k) _, Nat.add_le_add_left hshort _⟩
  failed str' h := (LebReader.fails_traced.mp h).2
  rejected := by
    intro n hn hall
    have hnk : n ≤ k := Nat.le_of_not_lt fun hlt => UInt8.not_lt.mpr (hall k hlt) h.1
    have hlong : (w + 7 - 1) / 7 < (k + 1) % 256 := by
      rw [Nat.mod_eq_of_lt (by omega)]
      exact (hn.trans_le hnk).trans (Nat.lt_succ_self k)
    exact LebReader.fails_traced.mpr
      ⟨LebReader.read_of_long hlt (hk.trans (by decide)) h hlong, rfl⟩

/-- A number of 256 bytes: the counter is 0 behind it, so that it is taken for one of no bytes. -/
theorem read_of_wrapped (hlt : str.pos < str.last) (h : NumberEnds mem str.pos 255) :
    ∃ v, Runs (r.traced mem w) str v str := by
  obtain ⟨v, hv⟩ := LebReader.read_of_short (r := r) hlt (by decide) h (Nat.zero_le _)
  exact ⟨v, LebReader.runs_traced.mpr hv⟩

/-- 255 bytes that all announce another one are too many for the counter: with the next one it
starts again. -/
theorem not_lebDisciplined (hlt : str.pos < str.last)
    (hall : ∀ i < 255, 0x80 ≤ mem (str.pos + i)) : ¬ LebDisciplined r mem w str := by
  intro h
  rcases Nat.lt_or_ge (mem (str.pos + 255)).toNat 0x80 with hend | hcont
  · obtain ⟨v, hrun⟩ := read_of_wrapped (r := r) (w := w) hlt ⟨hend, hall⟩
    exact Nat.not_succ_le_self _ (h.consumed v str hrun).1
  · refine LebReader.not_ends_of_continued hlt (fun i hi => ?_) h.ends
    rcases Nat.lt_succ_iff_lt_or_eq.mp hi with hi | rfl
    · exact hall i hi
    · exact hcont

/-- `fw_str_leb_getu` and `fw_str_leb_gets` end and go by the length if and only if no byte is left
or one of the first 255 bytes announces no other. -/
theorem leb_disciplined_iff (r : LebReader) (mem : Mem) (w : ℕ) (str : FwStr) :
    LebDisciplined r mem w str ↔ str.last ≤ str.pos ∨ ∃ i < 255, mem (str.pos + i) < 0x80 := by
  refine ⟨fun h => ?_, ?_⟩
  · by_contra hno
    obtain ⟨hlt, hnone⟩ := not_or.mp hno
    refine not_lebDisciplined (Nat.not_le.mp hlt) (fun i hi => ?_) h
    exact UInt8.not_lt.mp fun hend => hnone ⟨i, hi, hend⟩
  · rintro (hge | ⟨i, hi, hend⟩)
    · exact lebDisciplined_of_ge hge
    · rcases Nat.lt_or_ge str.pos str.last with hlt | hge
      · obtain ⟨k, hk, hends⟩ := exists_numberEnds hend
        exact lebDisciplined_of_ends hlt (hk.trans_lt hi) hends
      · exact lebDisciplined_of_ge hge

theorem memOf_replicate {b : UInt8} {n i : ℕ} (bs : List UInt8) (h : i < n) :
    memOf (List.replicate n b ++ bs) i = b := by
  have hlen : i < (List.replicate n b).length := h.trans_eq List.length_replicate.symm
  rw [memOf, List.getD_append _ _ _ _ hlen, List.getD_replicate _ h]

/-- 256 bytes that all announce another one, and 256 bytes of which the last one does not. -/
theorem longNumbers_not_disciplined :
    ¬ LebDisciplined .getu (memOf (List.replicate 255 0x80 ++ [0x80])) 32 ⟨0, 256⟩ ∧
      ¬ LebDisciplined .gets (memOf (List.replicate 255 0x80 ++ [0x80])) 32 ⟨0, 256⟩ ∧
      ¬ LebDisciplined .getu (memOf (List.replicate 255 0x80 ++ [0x00])) 32 ⟨0, 256⟩ ∧
      ¬ LebDisciplined .gets (memOf (List.replicate 255 0x80 ++ [0x00])) 32 ⟨0, 256⟩ := by
  have hall : ∀ bs, ∀ i < 255, 0x80 ≤ memOf (List.replicate 255 0x80 ++ bs) (0 + i) := by
    intro bs i hi
    rw [Nat.zero_add, memOf_replicate bs hi]
    exact UInt8.le_refl _
  exact ⟨not_lebDisciplined (by decide) (hall _), not_lebDisciplined (by decide) (hall _),
    not_lebDisciplined (by decide) (hall _), not_lebDisciplined (by decide) (hall _)⟩

end FastWasm
