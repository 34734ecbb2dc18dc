import SoundLink.Proofs.Intake
import SoundLink.Proofs.RegisterBounds

namespace SoundLink.Demodulator

open Registers

/-- A sample that is taken, and how many others are being taken meanwhile. -/
structure Call where
  level : ℕ
  registers : Registers
  sample : Sample

namespace Call

variable (d : Demodulator) (c : Call)

def taken : Taken := d.take c.registers c.sample

def search : SearchRegisters := c.registers.search.push d.filter d.threshold c.sample

def Locks : Prop := c.registers.mode = .search ∧ (c.search d).settled d.filter ≠ none

/-- What holds of a sample that is taken again. A search that it is part of is too young for a match. -/
structure Inner : Prop where
  level_eq : c.level = 1
  not_locks : ¬c.Locks d
  window_lt : c.registers.mode = .search → (c.search d).window.length < d.filter.span

end Call

/-- Samples are taken in turn, and what is to be taken again because of one of them is taken before the
next, a level deeper. The calls stand in the order in which they begin. -/
inductive Calls (d : Demodulator) : ℕ → Registers → List Sample → List Call → Registers → Prop
  | nil (level : ℕ) (r : Registers) : Calls d level r [] [] r
  | cons {level : ℕ} {r r' r'' : Registers} {s : Sample} {xs : List Sample} {again rest : List Call}
      (hagain : Calls d (level + 1) (d.take r s).registers (d.take r s).replay again r')
      (hrest : Calls d level r' xs rest r'') :
      Calls d level r (s :: xs) (⟨level, r, s⟩ :: again ++ rest) r''

/-- The calls that one sample of a stream brings: its own, and those for the samples that are taken again
because of it. -/
structure Shallow (d : Demodulator) (s : Sample) (calls : List Call) : Prop where
  begins : ∃ r, calls.head? = some ⟨0, r, s⟩
  length_le : calls.length ≤ d.filter.span + 1
  inner : ∀ c ∈ calls.tail, c.Inner d
  searched_le : calls.tail.countP (·.registers.mode = .search) ≤ d.filter.span - 10

variable {d : Demodulator} {r r' r'' : Registers} {s : Sample} {xs ys : List Sample}
variable {level k : ℕ} {calls calls' : List Call}

theorem Calls.unique (h : d.Calls level r xs calls r') (h' : d.Calls level r xs calls' r'') :
    calls = calls' ∧ r' = r'' := by
  induction h generalizing calls' r'' with
  | nil level r =>
    cases h'
    exact ⟨rfl, rfl⟩
  | cons _ _ ihagain ihrest =>
    cases h' with
    | cons hagain' hrest' =>
      obtain ⟨rfl, rfl⟩ := ihagain hagain'
      obtain ⟨rfl, rfl⟩ := ihrest hrest'
      exact ⟨rfl, rfl⟩

theorem Calls.append (h : d.Calls level r xs calls r') (h' : d.Calls level r' ys calls' r'') :
    d.Calls level r (xs ++ ys) (calls ++ calls') r'' := by
  induction h with
  | nil level r => exact h'
  | cons hagain _ _ ihrest =>
    have hcalls := Calls.cons hagain (ihrest h')
    rwa [← List.append_assoc] at hcalls

/-- It makes no difference that samples to be taken again are put before the rest of the stream. -/
theorem Calls.process_eq (h : d.Calls level r xs calls r') :
    d.process r xs = (r', calls.flatMap fun c ↦ (c.taken d).events) := by
  induction h with
  | nil level r => exact process_nil r
  | cons _ _ ihagain ihrest =>
    rw [process_cons, process_append, ihagain, ihrest]
    simp [Call.taken]

theorem Calls.sample (hreplay : (d.take r s).replay = []) (level : ℕ) :
    d.Calls level r [s] [⟨level, r, s⟩] (d.take r s).registers := by
  have hagain := Calls.nil (d := d) (level + 1) (d.take r s).registers
  have hrest := Calls.nil (d := d) level (d.take r s).registers
  rw [← hreplay] at hagain
  exact .cons hagain hrest

/-- Registers after `k` samples of those that are taken again: the frame is still being read, or what comes
after it is searched, and then the window holds no more than the samples after its first codeword. -/
inductive Within (k : ℕ) (r : Registers) : Prop
  | frame (hmode : r.mode ≠ .search) (hclear : r.search = .clear) (hbits : r.slicer.bits ≤ k)
  | search (hmode : r.mode = .search) (hnone : r.search.candidate = none)
      (hwindow : r.search.window.length + LineCode.wordBits ≤ k)

theorem bits_push (slicer : Slicer) (size : ℕ) (s : Sample) :
    (slicer.push size s).1.bits ≤ slicer.bits + 1 ∧
      ((slicer.push size s).2 ≠ none → LineCode.wordBits ≤ slicer.bits + 1) := by
  unfold Slicer.push
  dsimp only
  split
  · exact ⟨Nat.le_succ _, fun hsome ↦ absurd rfl hsome⟩
  · split
    · exact ⟨le_rfl, fun hsome ↦ absurd rfl hsome⟩
    · rename_i hword
      exact ⟨Nat.zero_le _, fun _ ↦ not_lt.1 hword⟩

def bitSize (d : Demodulator) (r : Registers) : ℕ := if r.mode = .header then d.headerSize else d.size

theorem extract_of_push_none {slicer : Slicer} (h : r.slicer.push (d.bitSize r) s = (slicer, none)) :
    d.extract r s = ({ r with slicer }, .ok []) := by
  rw [bitSize] at h
  rw [extract, h]

theorem slicer_extract {slicer : Slicer} {out : Option UInt16}
    (h : r.slicer.push (d.bitSize r) s = (slicer, out)) : (d.extract r s).1.slicer = slicer := by
  rw [bitSize] at h
  rw [extract, h]
  cases out with
  | none => rfl
  | some codeword =>
    dsimp only
    split
    · rfl
    · exact (d.receiveByte_leaves _ _).2

theorem within_of_clear (hclear : r.search = .clear) (hbits : r.slicer.bits ≤ k)
    (hword : LineCode.wordBits ≤ k) : Within k r := by
  by_cases hmode : r.mode = .search
  · refine .search hmode ?_ ?_ <;> rw [hclear]
    · rfl
    · exact (Nat.zero_add _).trans_le hword
  · exact .frame hmode hclear hbits

theorem within_extract (hmode : r.mode ≠ .search) (hclear : r.search = .clear)
    (hbits : r.slicer.bits ≤ k) (s : Sample) :
    Within (k + 1) (d.take r s).registers ∧ (d.take r s).replay = [] := by
  obtain ⟨hnext, hword⟩ := bits_push r.slicer (d.bitSize r) s
  have hsearch := (d.search_extract r s).trans hclear
  obtain ⟨⟨slicer, out⟩, hpush⟩ : ∃ pushed, r.slicer.push (d.bitSize r) s = pushed := ⟨_, rfl⟩
  rw [hpush] at hnext hword
  have hfew : slicer.bits ≤ k + 1 := hnext.trans (Nat.succ_le_succ hbits)
  cases out with
  | none =>
    rw [take_of_ok hmode (extract_of_push_none hpush)]
    exact ⟨.frame hmode hclear hfew, rfl⟩
  | some codeword =>
    have hfull : LineCode.wordBits ≤ k + 1 :=
      (hword (Option.some_ne_none _)).trans (Nat.succ_le_succ hbits)
    rw [← slicer_extract hpush] at hfew
    obtain ⟨⟨r', answer⟩, hextract⟩ : ∃ extracted, d.extract r s = extracted := ⟨_, rfl⟩
    rw [hextract] at hsearch hfew
    cases answer with
    | ok es =>
      rw [take_of_ok hmode hextract]
      exact ⟨within_of_clear hsearch hfew hfull, rfl⟩
    | error e =>
      rw [take_of_error hmode hextract]
      exact ⟨within_of_clear rfl hfew hfull, rfl⟩

theorem push_of_short {f : MatchedFilter} {q : SearchRegisters} (h : q.window.length + 1 < f.span)
    (threshold : Fixed) (s : Sample) :
    q.push f threshold s = { q with window := s :: q.window } := by
  have htake : (s :: q.window).take f.span = s :: q.window := List.take_of_length_le h.le
  rw [SearchRegisters.push, htake]
  exact if_pos h

theorem Within.take (h : Within k r) (hk : k < d.filter.span) (s : Sample) :
    Within (k + 1) (d.take r s).registers ∧ (d.take r s).replay = [] ∧ (Call.mk 1 r s).Inner d ∧
      (r.mode = .search → LineCode.wordBits ≤ k) := by
  cases h with
  | frame hmode hclear hbits =>
    obtain ⟨hnext, hreplay⟩ := within_extract (d := d) hmode hclear hbits s
    exact ⟨hnext, hreplay, ⟨rfl, fun hlocks ↦ hmode hlocks.1, fun hsearch ↦ absurd hsearch hmode⟩,
      fun hsearch ↦ absurd hsearch hmode⟩
  | search hmode hnone hwindow =>
    have hword : 0 < LineCode.wordBits := by decide
    have hshort : r.search.window.length + 1 < d.filter.span := by omega
    have hpush := push_of_short hshort d.threshold s
    have hsettled : (r.search.push d.filter d.threshold s).settled d.filter = none := by
      rw [hpush, SearchRegisters.settled, hnone, ite_self]
    have hinner : (Call.mk 1 r s).Inner d := by
      refine ⟨rfl, fun hlocks ↦ hlocks.2 hsettled, fun _ ↦ ?_⟩
      rw [Call.search, hpush]
      exact hshort
    rw [take_of_settled_eq_none hmode hsettled, hpush]
    refine ⟨.search hmode hnone ?_, rfl, hinner, fun _ ↦ by omega⟩
    dsimp only
    rw [List.length_cons]
    omega

theorem Within.exists_calls (h : Within k r) (hk : k + xs.length ≤ d.filter.span) :
    ∃ calls r', d.Calls 1 r xs calls r' ∧ calls.length = xs.length ∧ (∀ c ∈ calls, c.Inner d) ∧
      calls.countP (·.registers.mode = .search) ≤ k + xs.length - max k LineCode.wordBits := by
  -- a sample that is searched has ten before it, so those of the first codeword are never counted
  induction xs generalizing k r with
  | nil => exact ⟨[], r, .nil 1 r, rfl, nofun, Nat.zero_le _⟩
  | cons s xs ih =>
    rw [List.length_cons] at hk
    obtain ⟨hnext, hreplay, hinner, hword⟩ := h.take (d := d) (by omega) s
    obtain ⟨calls, r', hcalls, hlength, hrest, hcount⟩ := ih hnext (by omega)
    refine ⟨⟨1, r, s⟩ :: calls, r', (Calls.sample hreplay 1).append hcalls, ?_, ?_, ?_⟩
    · rw [List.length_cons, List.length_cons, hlength]
    · exact List.forall_mem_cons.2 ⟨hinner, hrest⟩
    · rw [List.countP_cons, List.length_cons]
      split
      · rename_i hmode
        have hten := hword (of_decide_eq_true hmode)
        omega
      · omega

theorem Reachable.sound (h : d.Reachable r) (hmode : r.mode = .search) :
    r.search.Sound d.filter ∧ r.search.settled d.filter = none := by
  obtain ⟨σ, hσ⟩ := h.shows
  cases hσ with
  | search _ hsound hnone => exact ⟨hsound, hnone⟩
  | header hother => exact absurd (hmode.symm.trans hother) (by decide)
  | payload hother => exact absurd (hmode.symm.trans hother) (by decide)
  | checksum hother => exact absurd (hmode.symm.trans hother) (by decide)

theorem Reachable.replay_cases (h : d.Reachable r) (s : Sample) :
    (d.take r s).replay = [] ∨
      Within 0 (d.take r s).registers ∧ (d.take r s).replay.length ≤ d.filter.span := by
  by_cases hmode : r.mode = .search
  · obtain ⟨hsound, hnone⟩ := h.sound hmode
    cases hc : (r.search.push d.filter d.threshold s).settled d.filter with
    | none =>
      rw [take_of_settled_eq_none hmode hc]
      exact .inl rfl
    | some c =>
      have hkept := (hsound.push d.threshold hnone s).length_kept_le hc
      rw [take_of_settled_eq_some hmode hc]
      refine .inr ⟨.frame (show Mode.header ≠ Mode.search by decide) rfl (Nat.zero_le 0), ?_⟩
      simp only [startExtraction, List.length_drop]
      omega
  · left
    rw [Demodulator.take, if_neg hmode]
    split <;> rfl

theorem Reachable.exists_shallow (h : d.Reachable r) (s : Sample) :
    ∃ calls r', d.Calls 0 r [s] calls r' ∧ d.Shallow s calls := by
  obtain hreplay | ⟨hwithin, hlength⟩ := h.replay_cases s
  · exact ⟨_, _, .sample hreplay 0, ⟨r, rfl⟩, Nat.le_add_left 1 _, nofun, Nat.zero_le _⟩
  · obtain ⟨again, r', hagain, hsame, hinner, hcount⟩ :=
      hwithin.exists_calls (d := d) ((Nat.zero_add _).trans_le hlength)
    have hcalls := Calls.cons hagain (.nil 0 r')
    rw [List.append_nil] at hcalls
    refine ⟨_, r', hcalls, ⟨r, rfl⟩, ?_, hinner, ?_⟩
    · rw [List.length_cons, hsame]
      exact Nat.succ_le_succ hlength
    · have hword : LineCode.wordBits = 10 := rfl
      rw [List.tail_cons]
      omega

theorem Reachable.exists_parts (h : d.Reachable r) (xs : List Sample) :
    ∃ parts r', d.Calls 0 r xs parts.flatten r' ∧ List.Forall₂ d.Shallow xs parts := by
  induction xs generalizing r with
  | nil => exact ⟨[], r, .nil 0 r, .nil⟩
  | cons s xs ih =>
    obtain ⟨calls, r', hcalls, hshallow⟩ := h.exists_shallow s
    have hnext : d.Reachable r' := by
      have hprocess := h.process [s]
      rwa [hcalls.process_eq] at hprocess
    obtain ⟨parts, r'', hmore, hrest⟩ := ih hnext
    exact ⟨calls :: parts, r'', hcalls.append hmore, .cons hshallow hrest⟩

/-- Wherever a demodulator has come to, the recursion ends for every block, and does what is done without
one. A sample of the block brings, besides its own call, no more calls than a preamble has samples, and
these bring none in turn. -/
theorem Reachable.replays_once (h : d.Reachable r) (xs : List Sample) :
    ∃ parts, d.Calls 0 r xs parts.flatten (d.process r xs).1 ∧
      (∀ calls r', d.Calls 0 r xs calls r' → calls = parts.flatten ∧ r' = (d.process r xs).1) ∧
      (d.process r xs).2 = parts.flatten.flatMap (fun c ↦ (c.taken d).events) ∧
      List.Forall₂ d.Shallow xs parts := by
  obtain ⟨parts, r', hcalls, hshallow⟩ := h.exists_parts xs
  rw [hcalls.process_eq]
  exact ⟨parts, hcalls, fun calls r'' hcalls' ↦ hcalls'.unique hcalls, rfl, hshallow⟩

theorem Reachable.replays_once_silence :
    let d := Config.Phy.terse.demodulator
    let r := d.taken .new (0 :: Config.Phy.terse.preambleSamples ++ List.replicate 23 0)
    let t := d.take r 0
    (d.filter.span = 24 ∧ t.replay.length = 24 ∧
        (d.taken t.registers (t.replay.take 10)).mode = .search) ∧
      ∃ calls, d.Calls 0 r [0] calls (d.process r [0]).1 ∧ d.Shallow 0 calls := by
  intro d r t
  have hsilence : d.filter.span = 24 ∧ t.replay.length = 24 ∧
      (d.taken t.registers (t.replay.take 10)).mode = .search := by decide +kernel
  obtain ⟨parts, hcalls, -, -, hshallow⟩ := Reachable.replays_once (Reachable.new.taken (d := d)
    (0 :: Config.Phy.terse.preambleSamples ++ List.replicate 23 0)) [0]
  cases hshallow with
  | cons hone hnil =>
    cases hnil
    rw [List.flatten_singleton] at hcalls
    exact ⟨hsilence, _, hcalls, hone⟩

end SoundLink.Demodulator
