import SoundLink.PowerMonitor
import SoundLink.Proofs.FixedPoint
import Mathlib.Data.List.DropRight

namespace SoundLink

theorem exists_of_map_eq_ok {ε α β : Type} {f : α → β} {o : Except ε α} {b : β}
    (h : o.map f = .ok b) : ∃ a, o = .ok a ∧ f a = b := by
  cases o with
  | error e => cases h
  | ok a => exact ⟨a, rfl, Except.ok.inj h⟩

def magnitude (s : Sample) : ℤ := |s.toInt / 2 ^ 15|

theorem units_magnitude (s : Sample) : (Fixed.ofSample s).abs.units = magnitude s := by
  have hle := abs_le.1 (Fixed.abs_units_ofSample s)
  rw [Fixed.units_abs (by omega), Fixed.units_ofSample, magnitude]

theorem magnitude_nonneg (s : Sample) : 0 ≤ magnitude s := abs_nonneg _

theorem magnitude_le (s : Sample) : magnitude s ≤ 65536 := by
  have hle := Fixed.abs_units_ofSample s
  rwa [Fixed.units_ofSample] at hle

namespace PowerMonitor

variable {m : PowerMonitor} {w : ℕ} {heard : List Sample}

def windowSum (w : ℕ) (heard : List Sample) : ℤ := ((heard.rtake w).map magnitude).sum

/-- The sums of the windows that end in a block. -/
def windowSums (w : ℕ) (heard block : List Sample) : Set ℤ :=
  {x | ∃ i < block.length, windowSum w (heard ++ block.take (i + 1)) = x}

theorem windowSum_nonneg (w : ℕ) (heard : List Sample) : 0 ≤ windowSum w heard := by
  refine List.sum_nonneg fun x hx ↦ ?_
  obtain ⟨s, -, rfl⟩ := List.mem_map.1 hx
  exact magnitude_nonneg s

theorem windowSum_le (w : ℕ) (heard : List Sample) : windowSum w heard ≤ w * 65536 := by
  have hterms : ∀ x ∈ (heard.rtake w).map magnitude, x ≤ 65536 := by
    intro x hx
    obtain ⟨s, -, rfl⟩ := List.mem_map.1 hx
    exact magnitude_le s
  have hlength : ((heard.rtake w).map magnitude).length ≤ w := by
    rw [List.length_map, List.rtake, List.length_drop]
    omega
  have hsum := List.sum_le_card_nsmul _ _ hterms
  rw [nsmul_eq_mul] at hsum
  refine hsum.trans ?_
  gcongr

theorem windowSum_concat (w : ℕ) (heard : List Sample) (s : Sample) :
    windowSum (w + 1) (heard ++ [s]) = windowSum w heard + magnitude s := by
  simp [windowSum, List.rtake_concat_succ]

theorem exists_rtake_succ (h : w < heard.length) : ∃ s, heard.rtake (w + 1) = s :: heard.rtake w := by
  refine ⟨heard[heard.length - (w + 1)], ?_⟩
  rw [List.rtake, List.drop_eq_getElem_cons (by omega), List.rtake]
  congr 2
  omega

theorem rtake_of_le (h : heard.length ≤ w) : heard.rtake w = heard := by
  rw [List.rtake, Nat.sub_eq_zero_of_le h, List.drop_zero]

theorem windowSums_append (w : ℕ) (heard xs ys : List Sample) :
    windowSums w heard (xs ++ ys) = windowSums w heard xs ∪ windowSums w (heard ++ xs) ys := by
  ext x
  constructor
  · rintro ⟨i, hi, rfl⟩
    rw [List.length_append] at hi
    by_cases hxs : i < xs.length
    · exact .inl ⟨i, hxs, by rw [List.take_append_of_le_length hxs]⟩
    · refine .inr ⟨i - xs.length, by omega, ?_⟩
      rw [List.take_append, List.take_of_length_le (by omega : xs.length ≤ i + 1), List.append_assoc,
        Nat.sub_add_comm (not_lt.1 hxs)]
  · rintro (⟨i, hi, rfl⟩ | ⟨i, hi, rfl⟩)
    · exact ⟨i, by simp; omega, by rw [List.take_append_of_le_length hi]⟩
    · refine ⟨xs.length + i, by simpa using hi, ?_⟩
      rw [Nat.add_assoc, List.take_length_add_append, List.append_assoc]

theorem windowSums_singleton (w : ℕ) (heard : List Sample) (s : Sample) :
    windowSums w heard [s] = {windowSum w (heard ++ [s])} := by
  ext x
  simp [windowSums, eq_comm]

structure Tracks (m : PowerMonitor) (w : ℕ) (heard : List Sample) : Prop where
  span : m.span = w
  window : m.window.toList.map Fixed.units = (heard.rtake w).map magnitude
  sum : m.sum.units = windowSum w heard

theorem Tracks.ofConfig (c : Config.PowerMonitor) : Tracks (ofConfig c) c.window.toNat [] := by
  refine ⟨rfl, ?_, ?_⟩
  · rw [List.rtake_nil]
    rfl
  · rw [windowSum, List.rtake_nil]
    rfl

theorem Tracks.size (h : Tracks m w heard) : m.window.size = min w heard.length := by
  have hlength := congrArg List.length h.window
  rw [List.length_map, List.length_map, Fifo.length_toList, List.rtake, List.length_drop] at hlength
  omega

theorem slide_of_short (h : m.window.size < m.span) (s : Sample) : m.slide s = { m with
    window := m.window.push (Fixed.ofSample s).abs, sum := m.sum + (Fixed.ofSample s).abs } := by
  have hlt : ¬m.span < (m.window.push (Fixed.ofSample s).abs).size := not_lt.2 h
  rw [slide, if_neg hlt]

theorem slide_of_full {oldest : Fixed} {rest : List Fixed} (h : m.span ≤ m.window.size)
    (hlist : m.window.toList = oldest :: rest) (s : Sample) :
    ∃ window, m.slide s = { m with window, sum := m.sum + (Fixed.ofSample s).abs - oldest } ∧
      window.toList = rest ++ [(Fixed.ofSample s).abs] := by
  obtain ⟨window, hpop, hkept⟩ : ∃ r, (m.window.push (Fixed.ofSample s).abs).pop? = some (oldest, r) ∧
      r.toList = rest ++ [(Fixed.ofSample s).abs] := by
    apply Fifo.exists_pop?
    rw [Fifo.toList_push, hlist, List.cons_append]
  have hlt : m.span < (m.window.push (Fixed.ofSample s).abs).size := Nat.lt_succ_of_le h
  refine ⟨window, ?_, hkept⟩
  rw [slide, if_pos hlt, hpop]

theorem Tracks.slide (hle : w < 32767) (h : Tracks m (w + 1) heard) (s : Sample) :
    Tracks (m.slide s) (w + 1) (heard ++ [s]) := by
  have hsize := h.size
  have hspan := h.span
  have hnonneg := windowSum_nonneg (w + 1) (heard ++ [s])
  have hfits := windowSum_le (w + 1) (heard ++ [s])
  rw [windowSum_concat] at hnonneg hfits
  push_cast at hfits
  by_cases hfull : w < heard.length
  · obtain ⟨last, hlast⟩ := exists_rtake_succ hfull
    have hwindow := h.window
    rw [hlast, List.map_cons] at hwindow
    obtain ⟨oldest, rest, hlist, hunits, hrest⟩ := List.map_eq_cons_iff.1 hwindow
    obtain ⟨window, hslide, hkept⟩ := slide_of_full (by omega) hlist s
    have hsum : windowSum (w + 1) heard = magnitude last + windowSum w heard := by
      rw [windowSum, hlast, List.map_cons, List.sum_cons, windowSum]
    rw [hslide]
    refine ⟨hspan, ?_, ?_⟩
    · rw [hkept, List.map_append, hrest, List.rtake_concat_succ, List.map_append, List.map_singleton,
        List.map_singleton, units_magnitude]
    · -- on its way to the next window the sum of a full one may wrap
      rw [Fixed.units_sub_wrap, Fixed.units_add_wrap, Int.bmod_sub_bmod, h.sum, units_magnitude, hunits, hsum,
        windowSum_concat, add_assoc, add_sub_cancel_left]
      exact bmod_32 (by omega) (by omega)
  · have hall : heard.rtake (w + 1) = heard.rtake w := by
      rw [rtake_of_le (by omega), rtake_of_le (by omega)]
    have hsum : windowSum (w + 1) heard = windowSum w heard := by rw [windowSum, hall, windowSum]
    rw [slide_of_short (by omega)]
    refine ⟨hspan, ?_, ?_⟩
    · rw [Fifo.toList_push, List.map_append, h.window, hall, List.rtake_concat_succ, List.map_append,
        List.map_singleton, List.map_singleton, units_magnitude]
    · rw [Fixed.units_add_wrap, h.sum, units_magnitude, hsum, windowSum_concat]
      exact bmod_32 (by omega) (by omega)

theorem scan_concat (m : PowerMonitor) (block : List Sample) (s : Sample) :
    m.scan (block ++ [s]) = ((m.scan block).1.slide s,
      if (m.scan block).2 < ((m.scan block).1.slide s).sum then ((m.scan block).1.slide s).sum
      else (m.scan block).2) := by
  rw [scan, List.foldl_append]
  rfl

theorem Tracks.scan (hpos : 0 < w) (hle : w ≤ 32767) (h : Tracks m w heard) (block : List Sample) :
    Tracks (m.scan block).1 w (heard ++ block) ∧
      IsGreatest (insert 0 (windowSums w heard block)) (m.scan block).2.units := by
  obtain ⟨w, rfl⟩ := Nat.exists_eq_succ_of_ne_zero hpos.ne'
  induction block using List.reverseRecOn with
  | nil => exact ⟨by rwa [List.append_nil], by simp [windowSums, PowerMonitor.scan]⟩
  | append_singleton block s ih =>
    obtain ⟨htracks, hgreatest⟩ := ih
    have hnext := htracks.slide hle s
    have hlast : IsGreatest (windowSums (w + 1) (heard ++ block) [s])
        ((m.scan block).1.slide s).sum.units := by
      rw [windowSums_singleton, ← hnext.sum]
      exact isGreatest_singleton
    have hmax : (m.scan (block ++ [s])).2.units =
        max (m.scan block).2.units ((m.scan block).1.slide s).sum.units := by
      rw [scan_concat]
      dsimp only
      split_ifs with hlt
      · exact (max_eq_right (Fixed.lt_iff _ _ |>.1 hlt).le).symm
      · exact (max_eq_left (not_lt.1 (mt (Fixed.lt_iff _ _).2 hlt))).symm
    refine ⟨?_, ?_⟩
    · rwa [scan_concat, ← List.append_assoc]
    · rw [windowSums_append, ← Set.insert_union, hmax]
      exact hgreatest.union hlast

theorem isGreatest_windowSums {block : List Sample} {peak : ℤ} (hne : block ≠ [])
    (h : IsGreatest (insert 0 (windowSums w heard block)) peak) :
    IsGreatest (windowSums w heard block) peak := by
  obtain ⟨hmem, hupper⟩ := h
  have hupper' : peak ∈ upperBounds (windowSums w heard block) := fun x hx ↦ hupper (.inr hx)
  obtain rfl | hmem := hmem
  · -- the sum after the first sample is not negative, and so it is the largest
    have hfirst : windowSum w (heard ++ block.take 1) ∈ windowSums w heard block :=
      ⟨0, List.length_pos_iff.2 hne, rfl⟩
    have hzero := le_antisymm (hupper' hfirst) (windowSum_nonneg _ _)
    rw [hzero] at hfirst
    exact ⟨hfirst, hupper'⟩
  · exact ⟨hmem, hupper'⟩

theorem units_divisor_wrap (m : PowerMonitor) :
    m.divisor.units = ((m.span : ℤ) * 65536).bmod (2 ^ 32) := by
  rw [divisor, Fixed.units_ofInt_wrap, Int32.toInt_ofNat']
  exact Int.bmod_mul_bmod

theorem units_divisor (h : m.span ≤ 32767) : m.divisor.units = m.span * 65536 := by
  rw [units_divisor_wrap, bmod_32 (by omega) (by omega)]

theorem divisor_ne_zero (h : ¬65536 ∣ m.span) : m.divisor.raw ≠ 0 := by
  intro hzero
  have hunits : ((m.span : ℤ) * 65536).bmod (2 ^ 32) = 0 := by
    rw [← units_divisor_wrap, Fixed.units, hzero]
    rfl
  have hdvd := Int.dvd_iff_bmod_eq_zero.2 hunits
  push_cast at hdvd
  omega

theorem scan_fst (m : PowerMonitor) (block : List Sample) : (m.scan block).1 = block.foldl slide m := by
  induction block using List.reverseRecOn with
  | nil => rfl
  | append_singleton block s ih => rw [scan_concat, List.foldl_append, ih]; rfl

theorem slide_keeps (m : PowerMonitor) (s : Sample) : (m.slide s).span = m.span ∧
    (m.slide s).threshold = m.threshold ∧ (m.slide s).channel = m.channel := by
  unfold slide
  dsimp only
  split <;> exact ⟨rfl, rfl, rfl⟩

theorem foldl_slide_keeps (m : PowerMonitor) (block : List Sample) :
    (block.foldl slide m).span = m.span ∧ (block.foldl slide m).threshold = m.threshold ∧
      (block.foldl slide m).channel = m.channel := by
  induction block generalizing m with
  | nil => exact ⟨rfl, rfl, rfl⟩
  | cons s block ih =>
    obtain ⟨hspan, hthreshold, hchannel⟩ := m.slide_keeps s
    obtain ⟨hspan', hthreshold', hchannel'⟩ := ih (m.slide s)
    exact ⟨hspan'.trans hspan, hthreshold'.trans hthreshold, hchannel'.trans hchannel⟩

def settle (m : PowerMonitor) (power : Fixed) : PowerMonitor :=
  { m with power, channel := m.channel.observe (m.threshold < power) }

theorem update_nil (m : PowerMonitor) : m.update [] = .ok m := rfl

theorem update_of_ne_nil {block : List Sample} (hne : block ≠ []) :
    m.update block = ((m.scan block).2.div (m.scan block).1.divisor).map (m.scan block).1.settle := by
  have hempty : block.isEmpty = false := by simpa using hne
  simp only [update, hempty]
  cases (m.scan block).2.div (m.scan block).1.divisor <;> rfl

theorem update_cases {m' : PowerMonitor} {block : List Sample} (h : m.update block = .ok m') :
    block = [] ∧ m' = m ∨ block ≠ [] ∧ ∃ power, m' = (block.foldl slide m).settle power := by
  obtain rfl | hne := eq_or_ne block []
  · exact .inl ⟨rfl, (Except.ok.inj h).symm⟩
  · rw [update_of_ne_nil hne, scan_fst] at h
    obtain ⟨power, -, rfl⟩ := exists_of_map_eq_ok h
    exact .inr ⟨hne, power, rfl⟩

theorem update_eq (h : ¬65536 ∣ m.span) {block : List Sample} (hne : block ≠ []) :
    m.update block =
      .ok ((block.foldl slide m).settle ((m.scan block).2.quotient m.divisor)) := by
  have hspan : (block.foldl slide m).divisor = m.divisor := by
    rw [divisor, (m.foldl_slide_keeps block).1, divisor]
  rw [update_of_ne_nil hne, scan_fst, hspan, Fixed.div, if_neg (divisor_ne_zero h)]
  rfl

theorem exists_update (h : ¬65536 ∣ m.span) (block : List Sample) :
    ∃ m', m.update block = .ok m' ∧ m'.span = m.span := by
  obtain rfl | hne := eq_or_ne block []
  · exact ⟨m, update_nil m, rfl⟩
  · exact ⟨_, update_eq h hne, (m.foldl_slide_keeps block).1⟩

theorem update_window {m' : PowerMonitor} {block : List Sample} (h : m.update block = .ok m') :
    m'.window = (block.foldl slide m).window ∧ m'.sum = (block.foldl slide m).sum ∧
      m'.span = (block.foldl slide m).span := by
  obtain ⟨rfl, rfl⟩ | ⟨-, power, rfl⟩ := update_cases h
  · exact ⟨rfl, rfl, rfl⟩
  · exact ⟨rfl, rfl, rfl⟩

theorem foldl_slide_congr {n : PowerMonitor} (hwindow : m.window = n.window) (hsum : m.sum = n.sum)
    (hspan : m.span = n.span) (block : List Sample) :
    (block.foldl slide m).window = (block.foldl slide n).window ∧
      (block.foldl slide m).sum = (block.foldl slide n).sum := by
  induction block generalizing m n with
  | nil => exact ⟨hwindow, hsum⟩
  | cons s block ih =>
    have hslide : (m.slide s).window = (n.slide s).window ∧ (m.slide s).sum = (n.slide s).sum := by
      simp only [slide, hwindow, hsum, hspan]
      split <;> exact ⟨rfl, rfl⟩
    exact ih hslide.1 hslide.2 (by rw [(m.slide_keeps s).1, (n.slide_keeps s).1, hspan])

theorem Tracks.update (hpos : 0 < w) (hle : w ≤ 32767) (h : Tracks m w heard) (block : List Sample) :
    ∃ m', m.update block = .ok m' ∧ Tracks m' w (heard ++ block) ∧
      (block ≠ [] → ∃ peak, IsGreatest (windowSums w heard block) peak ∧ m'.power.units = peak / w) := by
  have hspan := h.span
  obtain rfl | hne := eq_or_ne block []
  · exact ⟨m, update_nil m, by rwa [List.append_nil], fun hne ↦ absurd rfl hne⟩
  · obtain ⟨htracks, hgreatest⟩ := h.scan hpos hle block
    rw [scan_fst] at htracks
    have hpeak := isGreatest_windowSums hne hgreatest
    have hnonneg : 0 ≤ (m.scan block).2.units := by
      obtain ⟨i, -, hi⟩ := hpeak.1
      exact hi ▸ windowSum_nonneg _ _
    have hmean : (m.scan block).2.units * 65536 / m.divisor.units = (m.scan block).2.units / w := by
      rw [units_divisor (by omega), hspan, Int.mul_ediv_mul_of_pos_left _ _ (by decide)]
    have hpower : ((m.scan block).2.quotient m.divisor).units = (m.scan block).2.units / w := by
      rw [Fixed.units_quotient hnonneg, hmean]
      · rw [units_divisor (by omega)]
        omega
      · rw [hmean]
        exact (Int.ediv_le_self _ hnonneg).trans_lt (Fixed.units_lt _)
    exact ⟨_, update_eq (by omega) hne, ⟨htracks.span, htracks.window, htracks.sum⟩,
      fun _ ↦ ⟨_, hpeak, hpower⟩⟩

theorem Tracks.run (hpos : 0 < w) (hle : w ≤ 32767) (h : Tracks m w heard) (blocks : List (List Sample)) :
    ∃ m', blocks.foldlM PowerMonitor.update m = .ok m' ∧ Tracks m' w (heard ++ blocks.flatten) := by
  induction blocks generalizing m heard with
  | nil => exact ⟨m, rfl, by rwa [List.flatten_nil, List.append_nil]⟩
  | cons block blocks ih =>
    obtain ⟨m', hm', htracks, -⟩ := h.update hpos hle block
    obtain ⟨m'', hm'', htracks'⟩ := ih htracks
    refine ⟨m'', ?_, by rwa [List.flatten_cons, ← List.append_assoc]⟩
    rw [List.foldlM_cons, hm']
    exact hm''

theorem peak_div_mem {block : List Sample} {peak : ℤ} (hpos : 0 < w)
    (h : peak ∈ windowSums w heard block) : 0 ≤ peak / w ∧ peak / w ≤ 65536 := by
  obtain ⟨i, -, rfl⟩ := h
  refine ⟨Int.ediv_nonneg (windowSum_nonneg _ _) (by omega), ?_⟩
  rw [← Int.mul_ediv_cancel_left 65536 (by omega : (w : ℤ) ≠ 0)]
  exact Int.ediv_le_ediv (by omega) (windowSum_le _ _)

theorem Tracks.update_append (hpos : 0 < w) (hle : w ≤ 32767) (h : Tracks m w heard)
    (xs ys : List Sample) : ∃ a b whole, m.update xs = .ok a ∧ a.update ys = .ok b ∧
      m.update (xs ++ ys) = .ok whole ∧ whole.window = b.window ∧ whole.sum = b.sum ∧
      (xs ≠ [] → ys ≠ [] → whole.power.units = max a.power.units b.power.units) := by
  obtain ⟨a, ha, htracks, hpowerA⟩ := h.update hpos hle xs
  obtain ⟨b, hb, -, hpowerB⟩ := htracks.update hpos hle ys
  obtain ⟨whole, hwhole, -, hpower⟩ := h.update hpos hle (xs ++ ys)
  obtain ⟨hwindow, hsum, -⟩ := update_window hwhole
  obtain ⟨hwindowA, hsumA, hspanA⟩ := update_window ha
  obtain ⟨hwindowB, hsumB, -⟩ := update_window hb
  obtain ⟨hwindowAB, hsumAB⟩ := foldl_slide_congr hwindowA hsumA hspanA ys
  refine ⟨a, b, whole, ha, hb, hwhole, ?_, ?_, fun hxs hys ↦ ?_⟩
  · rw [hwindow, hwindowB, hwindowAB, List.foldl_append]
  · rw [hsum, hsumB, hsumAB, List.foldl_append]
  · obtain ⟨peakA, hpeakA, hmeanA⟩ := hpowerA hxs
    obtain ⟨peakB, hpeakB, hmeanB⟩ := hpowerB hys
    obtain ⟨peak, hpeak, hmean⟩ := hpower (List.append_ne_nil_of_left_ne_nil hxs ys)
    rw [windowSums_append] at hpeak
    have hmono : Monotone fun x : ℤ ↦ x / w := fun _ _ h ↦ Int.ediv_le_ediv (by omega) h
    rw [hmean, hmeanA, hmeanB, hpeak.unique (hpeakA.union hpeakB)]
    exact hmono.map_max

/-- Whatever the blocks, a monitor knows the last magnitudes and what they add up to. The power of a
block is the highest mean of a window that ends in it, rounded down; an empty block changes nothing;
and a block may be cut in two, of which the louder counts. -/
theorem measures_windows (c : Config.PowerMonitor) (hpos : 0 < c.window.toNat)
    (hle : c.window.toNat ≤ 32767) (blocks : List (List Sample)) :
    ∃ m, blocks.foldlM update (ofConfig c) = .ok m ∧
      m.window.toList.map Fixed.units = (blocks.flatten.rtake c.window.toNat).map magnitude ∧
      m.sum.units = windowSum c.window.toNat blocks.flatten ∧
      m.update [] = .ok m ∧
      (∀ block, block ≠ [] → ∃ m' peak, m.update block = .ok m' ∧
        IsGreatest (windowSums c.window.toNat blocks.flatten block) peak ∧
        m'.power.units = peak / c.window.toNat ∧ 0 ≤ m'.power.units ∧ m'.power.units ≤ 65536) ∧
      ∀ xs ys, ∃ a b whole, m.update xs = .ok a ∧ a.update ys = .ok b ∧ m.update (xs ++ ys) = .ok whole ∧
        whole.window = b.window ∧ whole.sum = b.sum ∧
        (xs ≠ [] → ys ≠ [] → whole.power.units = max a.power.units b.power.units) := by
  obtain ⟨m, hm, htracks⟩ := (Tracks.ofConfig c).run hpos hle blocks
  rw [List.nil_append] at htracks
  refine ⟨m, hm, htracks.window, htracks.sum, update_nil m, fun block hne ↦ ?_, fun xs ys ↦ ?_⟩
  · obtain ⟨m', hm', -, hpower⟩ := htracks.update hpos hle block
    obtain ⟨peak, hpeak, hmean⟩ := hpower hne
    obtain ⟨hnonneg, hone⟩ := peak_div_mem hpos hpeak.1
    exact ⟨m', peak, hm', hpeak, hmean, hmean ▸ hnonneg, hmean ▸ hone⟩
  · exact htracks.update_append hpos hle xs ys

theorem measures_windows_full_scale :
    let c : Config.PowerMonitor := { window := 2 }
    (0 < c.window.toNat ∧ c.window.toNat ≤ 32767) ∧
      ∃ m m', [[Int32.minValue, 5], [Int32.minValue, Int32.minValue]].foldlM update (ofConfig c) = .ok m ∧
        m.sum.units = 131072 ∧ m.update [0] = .ok m' ∧ m'.power.units = 32768 := by
  intro c
  have hpos : 0 < c.window.toNat := by decide
  have hle : c.window.toNat ≤ 32767 := by decide
  obtain ⟨m, hm, -, hsum, -, hpower, -⟩ := measures_windows c hpos hle
    [[Int32.minValue, 5], [Int32.minValue, Int32.minValue]]
  obtain ⟨m', peak, hm', hpeak, hmean, -⟩ := hpower [0] (by decide)
  rw [windowSums_singleton] at hpeak
  refine ⟨⟨hpos, hle⟩, m, m', hm, hsum.trans (by decide), hm', ?_⟩
  rw [hmean, hpeak.unique isGreatest_singleton]
  decide

end PowerMonitor

end SoundLink
