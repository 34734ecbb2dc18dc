import SoundLink.Proofs.LineCode
import SoundLink.Proofs.PeakOffset
import SoundLink.Proofs.Streaming

namespace SoundLink

/-- Samples of a stream that read as bits, one for each, after a last sample and at a phase. -/
def Faithful (phase : Fixed) : Fixed → List Sample → List Bool → Prop
  | _, [], [] => True
  | last, s :: ss, b :: bs =>
    (Fixed.lerp last (.ofSample s) phase).Reads b ∧ Faithful phase (.ofSample s) ss bs
  | _, _, _ => False

def Sums (bit : Bool) (t : ℕ) (sum : Fixed) : Prop :=
  if bit then -65536 * t ≤ sum.units ∧ sum.units ≤ -t else t ≤ sum.units ∧ sum.units ≤ 65536 * t

theorem sums_zero (bit : Bool) : Sums bit 0 0 := by cases bit <;> simp [Sums]

theorem Sums.add {bit : Bool} {t : ℕ} {sum v : Fixed} (h : Sums bit t sum) (hv : v.Reads bit)
    (ht : t < 32767) :
    Sums bit (t + 1) (sum + v) := by
  have hadd : (sum + v).units = sum.units + v.units := by
    apply Fixed.units_add <;> cases bit <;> simp [Sums, Fixed.Reads] at h hv <;> omega
  cases bit <;> simp [Sums, Fixed.Reads] at h hv ⊢ <;> omega

theorem Sums.lt_zero_iff {bit : Bool} {t : ℕ} {sum : Fixed} (h : Sums bit t sum) (ht : 0 < t) :
    sum < 0 ↔ bit = true := by
  rw [Fixed.lt_iff, Fixed.units_zero]
  cases bit <;> simp [Sums] at h ⊢ <;> omega

/-- The sum of what is read from samples, on top of a sum and after a last sample. -/
def Slicer.integral (phase : Fixed) : Fixed → Fixed → List Sample → Fixed
  | sum, _, [] => sum
  | sum, last, s :: ss => integral phase (sum + .lerp last (.ofSample s) phase) (.ofSample s) ss

/-- Samples of which so many at a time are read as a bit, and as `Rest` says what is left of them. -/
def Spells (phase : Fixed) (size : ℕ) (Rest : Fixed → List Sample → Prop) :
    Fixed → List Sample → List Bool → Prop
  | last, xs, [] => Rest last xs
  | last, xs, b :: bs => ∃ ys s zs, xs = ys ++ s :: zs ∧ ys.length + 1 = size ∧
      (Slicer.integral phase 0 last (ys ++ [s]) < 0 ↔ b = true) ∧
      Spells phase size Rest (.ofSample s) zs bs

def byteBits (size : ℕ) (b : UInt8) : List Bool := (LineCode.sent b).flatMap (List.replicate size)

theorem length_byteBits (size : ℕ) (b : UInt8) :
    (byteBits size b).length = LineCode.wordBits * size := by
  simp [byteBits, LineCode.length_sent]

/-- A relation between samples and bits, each as often as there are samples for it, that makes a
slicer read these bits wherever a bit has no fewer samples than `least`. -/
def Legible (phase : Fixed) (least : ℕ) (R : Fixed → List Sample → List Bool → Prop) : Prop :=
  ∀ size b rest last xs, least ≤ size → size ≤ 32767 → R last xs (byteBits size b ++ rest) →
    Spells phase size (R · · rest) last xs (LineCode.sent b)

section

variable {phase last sum : Fixed} {bit : Bool} {rest : List Bool} {xs : List Sample}

theorem Faithful.sums {k t : ℕ} (h : Faithful phase last xs (List.replicate (k + 1) bit ++ rest))
    (hsum : Sums bit t sum) (hle : t + k < 32767) :
    ∃ ys s zs, xs = ys ++ s :: zs ∧ ys.length = k ∧ Faithful phase (.ofSample s) zs rest ∧
      Sums bit (t + k + 1) (Slicer.integral phase sum last (ys ++ [s])) := by
  induction k generalizing t last sum xs with
  | zero =>
    obtain _ | ⟨s, zs⟩ := xs
    · exact h.elim
    · exact ⟨[], s, zs, rfl, rfl, h.2, hsum.add h.1 (by omega)⟩
  | succ k ih =>
    obtain _ | ⟨x, xs⟩ := xs
    · exact h.elim
    · obtain ⟨ys, s, zs, rfl, hlen, hzs, hsums⟩ := ih h.2 (hsum.add h.1 (by omega)) (by omega)
      refine ⟨x :: ys, s, zs, rfl, by rw [List.length_cons, hlen], hzs, ?_⟩
      rwa [show t + (k + 1) + 1 = t + 1 + k + 1 by omega]

theorem Faithful.spells {size : ℕ} {bs : List Bool} (hpos : 0 < size) (hsize : size ≤ 32767)
    (h : Faithful phase last xs (bs.flatMap (List.replicate size) ++ rest)) :
    Spells phase size (Faithful phase · · rest) last xs bs := by
  obtain ⟨k, rfl⟩ := Nat.exists_eq_succ_of_ne_zero hpos.ne'
  induction bs generalizing last xs with
  | nil => exact h
  | cons b bs ih =>
    rw [List.flatMap_cons, List.append_assoc] at h
    obtain ⟨ys, s, zs, rfl, hlen, hzs, hsums⟩ := h.sums (sums_zero b) (by omega)
    exact ⟨ys, s, zs, rfl, by rw [hlen], hsums.lt_zero_iff (by omega), ih hzs⟩

theorem legible_faithful (phase : Fixed) : Legible phase 1 (Faithful phase) :=
  fun _ _ _ _ _ hpos hsize h ↦ h.spells hpos hsize

end

namespace Slicer

variable {size t j : ℕ} {last phase sum : Fixed} {code : UInt16} {bit : Bool} (s : Sample)

theorem push_of_lt (h : t + 1 < size) :
    push size ⟨last, phase, sum, t, code, j⟩ s =
      (⟨.ofSample s, phase, sum + .lerp last (.ofSample s) phase, t + 1, code, j⟩, none) := by
  simp [push, h]

theorem push_of_bit (h : size ≤ t + 1)
    (hbit : sum + .lerp last (.ofSample s) phase < 0 ↔ bit = true)
    (hj : j + 1 < LineCode.wordBits) :
    push size ⟨last, phase, sum, t, code, j⟩ s =
      (⟨.ofSample s, phase, 0, 0, if bit then code ||| (1 <<< UInt16.ofNat j) else code, j + 1⟩,
        none) := by
  simp [push, h.not_gt, hj, hbit]

theorem push_of_word (h : size ≤ t + 1)
    (hbit : sum + .lerp last (.ofSample s) phase < 0 ↔ bit = true)
    (hj : LineCode.wordBits ≤ j + 1) :
    push size ⟨last, phase, sum, t, code, j⟩ s =
      (.start (.ofSample s) phase,
        some (if bit then code ||| (1 <<< UInt16.ofNat j) else code)) := by
  simp [push, h.not_gt, hj.not_gt, hbit]

end Slicer

namespace Demodulator

variable {d : Demodulator} {phase : Fixed} {p : List UInt8} {i : Option UInt8} {stage : Stage}
variable {es : List Event} {τ : State} {bit : Bool} {rest : List Bool} {code : UInt16} {j : ℕ}

/-- What holds of a stream whenever it holds after a first sample that hands out nothing. -/
def Inherits (d : Demodulator) (G : State → List Sample → Prop) : Prop :=
  ∀ σ s xs, events (d.step σ s).2 = [] → G (d.step σ s).1 xs → G σ (s :: xs)

theorem inherits_carries (d : Demodulator) (es : List Event) (τ : State) :
    d.Inherits fun σ xs ↦ d.Carries σ xs es τ :=
  fun _ _ _ hnone h ↦ carries_cons_iff.2 ⟨es, by rw [hnone, List.nil_append], h⟩

theorem inherits_silent (d : Demodulator) : d.Inherits fun σ xs ↦ ∃ τ, d.Carries σ xs [] τ := by
  rintro σ s xs hnone ⟨τ, h⟩
  exact ⟨τ, d.inherits_carries [] τ σ s xs hnone h⟩

theorem step_of_push {r r' : Slicer} {s : Sample}
    (hpush : r.push (d.sizeAt stage) s = (r', none)) :
    d.step ⟨.extract r stage, p, i⟩ s = (⟨.extract r' stage, p, i⟩, []) := by
  rw [step_extract, observe_of_push_none hpush]

variable {G : State → List Sample → Prop} (hG : d.Inherits G)
include hG

theorem Inherits.push {r r' : Slicer} {s : Sample} {xs : List Sample}
    (hpush : r.push (d.sizeAt stage) s = (r', none)) (h : G ⟨.extract r' stage, p, i⟩ xs) :
    G ⟨.extract r stage, p, i⟩ (s :: xs) := by
  have hstep := step_of_push (p := p) (i := i) hpush
  refine hG _ s xs ?_ ?_
  · rw [hstep]
    rfl
  · rwa [hstep]

theorem Inherits.wholeBit {t : ℕ} {last sum : Fixed} {s : Sample} {ys zs : List Sample}
    (hlen : t + ys.length + 1 = d.sizeAt stage)
    (h : ∀ last' sum', sum' + .lerp last' (.ofSample s) phase =
        Slicer.integral phase sum last (ys ++ [s]) →
      G ⟨.extract ⟨last', phase, sum', d.sizeAt stage - 1, code, j⟩ stage, p, i⟩ (s :: zs)) :
    G ⟨.extract ⟨last, phase, sum, t, code, j⟩ stage, p, i⟩ (ys ++ s :: zs) := by
  -- on the samples before the last one of the bit; they only add to the sum
  induction ys generalizing t last sum with
  | nil =>
    have := h last sum rfl
    rwa [← hlen] at this
  | cons y ys ih =>
    rw [List.length_cons] at hlen
    exact hG.push (Slicer.push_of_lt y (by omega)) (ih (by omega) h)

theorem Inherits.codeword {Rest : Fixed → List Sample → Prop} {bs : List Bool} {last : Fixed}
    {xs : List Sample} (hj : j + bs.length = LineCode.wordBits) (hne : bs ≠ [])
    (hxs : Spells phase (d.sizeAt stage) Rest last xs bs)
    (h : ∀ r s zs, Rest (.ofSample s) zs →
      r.push (d.sizeAt stage) s = (.start (.ofSample s) phase, some (LineCode.gather code j bs)) →
      G ⟨.extract r stage, p, i⟩ (s :: zs)) :
    G ⟨.extract ⟨last, phase, 0, 0, code, j⟩ stage, p, i⟩ xs := by
  induction bs generalizing code j last xs with
  | nil => exact absurd rfl hne
  | cons b bs ih =>
    obtain ⟨ys, s, zs, rfl, hlen, hbit, hzs⟩ := hxs
    rw [List.length_cons] at hj
    refine hG.wholeBit (by omega) fun last' sum' hsum ↦ ?_
    rw [← hsum] at hbit
    have hfull : d.sizeAt stage ≤ d.sizeAt stage - 1 + 1 := by omega
    by_cases hbs : bs = []
    · subst hbs
      exact h _ s zs hzs (Slicer.push_of_word s hfull hbit (by simp at hj; omega))
    · have hpos := List.length_pos_iff.2 hbs
      exact hG.push (Slicer.push_of_bit s hfull hbit (by omega)) (ih (by omega) hbs hzs h)

theorem Inherits.byte {Rest : Fixed → List Sample → Prop} {b : UInt8} {last : Fixed}
    {xs : List Sample} (hxs : Spells phase (d.sizeAt stage) Rest last xs (LineCode.sent b))
    (h : ∀ r s zs, Rest (.ofSample s) zs →
      r.push (d.sizeAt stage) s = (.start (.ofSample s) phase, some (LineCode.encode b)) →
      G ⟨.extract r stage, p, i⟩ (s :: zs)) :
    G ⟨.extract (.start last phase) stage, p, i⟩ xs := by
  have hlen := LineCode.length_sent b
  refine hG.codeword (by rw [hlen, Nat.zero_add]) (by rintro he; rw [he] at hlen; cases hlen) hxs
    fun r s zs hzs hpush ↦ h r s zs hzs ?_
  rw [hpush, LineCode.gather_sent]

omit hG

theorem symbol_of_receive {σ υ : State} {r : Slicer} {b : UInt8} {rs : List Report}
    (h : d.receive σ r b stage = .ok (υ, rs)) :
    d.symbol σ r stage (LineCode.encode b) = (υ, .byte b stage :: rs) := by
  unfold symbol
  rw [LineCode.decode_encode]
  simp only [h]

theorem step_of_word {r r' : Slicer} {s : Sample} {b : UInt8} {υ : State} {rs : List Report}
    (hpush : r.push (d.sizeAt stage) s = (r', some (LineCode.encode b)))
    (hr : d.receive ⟨.extract r stage, p, i⟩ r' b stage = .ok (υ, rs)) :
    d.step ⟨.extract r stage, p, i⟩ s = (υ, .byte b stage :: rs) := by
  rw [step_extract, observe_of_push_some hpush, symbol_of_receive hr]

theorem carries_byte {Rest : Fixed → List Sample → Prop} {b : UInt8} {last : Fixed}
    {xs : List Sample} (hxs : Spells phase (d.sizeAt stage) Rest last xs (LineCode.sent b))
    (h : ∀ (σ : State) last ys, σ.packet = p → σ.lastIndex = i → Rest last ys →
      ∃ υ rs fs, d.receive σ (.start last phase) b stage = .ok (υ, rs) ∧ es = events rs ++ fs ∧
        d.Carries υ ys fs τ) :
    d.Carries ⟨.extract (.start last phase) stage, p, i⟩ xs es τ := by
  refine (d.inherits_carries es τ).byte hxs fun r s ys hys hpush ↦ ?_
  obtain ⟨υ, rs, fs, hr, rfl, hrest⟩ := h ⟨.extract r stage, p, i⟩ _ ys rfl rfl hys
  have hstep := step_of_word hpush hr
  refine carries_cons_iff.2 ⟨fs, ?_, ?_⟩
  · rw [hstep]
    rfl
  · rwa [hstep]

/-- What holds of a frame whose rest is read as bits, whatever samples carry them. -/
def ReadsAs (G : State → List Sample → Prop) (phase : Fixed) (stage : Stage) (p : List UInt8)
    (i : Option UInt8) (bits : List Bool) : Prop :=
  ∀ last xs, Faithful phase last xs bits → G ⟨.extract (.start last phase) stage, p, i⟩ xs

def ReadsBy (R : Fixed → List Sample → List Bool → Prop) (G : State → List Sample → Prop)
    (phase : Fixed) (stage : Stage) (p : List UInt8) (i : Option UInt8) (bits : List Bool) : Prop :=
  ∀ last xs, R last xs bits → G ⟨.extract (.start last phase) stage, p, i⟩ xs

theorem ReadsBy.byte {R : Fixed → List Sample → List Bool → Prop} {least : ℕ} {b : UInt8}
    {p' : List UInt8} {i' : Option UInt8} (stage stage' : Stage) (rs : List Report)
    (hR : Legible phase least R) (hG : d.Inherits G) (hleast : least ≤ d.sizeAt stage)
    (hsize : d.sizeAt stage ≤ 32767)
    (hr : ∀ (σ : State) r, σ.packet = p → σ.lastIndex = i →
      d.receive σ r b stage = .ok (⟨.extract r stage', p', i'⟩, rs))
    (hrs : events rs = []) (h : ReadsBy R G phase stage' p' i' rest) :
    ReadsBy R G phase stage p i (byteBits (d.sizeAt stage) b ++ rest) := by
  refine fun last xs hxs ↦ hG.byte (hR _ _ _ _ _ hleast hsize hxs) fun r s ys hys hpush ↦ ?_
  have hstep := step_of_word hpush (hr ⟨.extract r stage, p, i⟩ _ rfl rfl)
  refine hG _ s ys ?_ ?_
  · rw [hstep]
    exact hrs
  · rw [hstep]
    exact h _ ys hys

def Delivers (d : Demodulator) (phase : Fixed) (stage : Stage) (p : List UInt8) (i : Option UInt8)
    (bits : List Bool) (es : List Event) (τ : State) : Prop :=
  ∀ last xs, Faithful phase last xs bits →
    d.Carries ⟨.extract (.start last phase) stage, p, i⟩ xs es τ

end Demodulator

end SoundLink
