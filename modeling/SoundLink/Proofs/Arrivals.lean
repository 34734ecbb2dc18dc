import SoundLink.Proofs.Reassembly

namespace SoundLink

def Acceptance.isTaken : Acceptance → Bool
  | .accepted _ => true
  | _ => false

namespace Reassembler

def framesOf (i : Fin 8) (frames : List (MacHeader × List UInt8)) : List (MacHeader × List UInt8) :=
  frames.filter fun f ↦ slot f.1.source = i

def log (r : Reassembler) (frames : List (MacHeader × List UInt8)) :
    List ((MacHeader × List UInt8) × Acceptance) :=
  frames.zip (r.acceptAll frames).2

/-- What is made of the frames of one source among those of all. -/
def answersTo (r : Reassembler) (i : Fin 8) (frames : List (MacHeader × List UInt8)) :
    List Acceptance :=
  ((r.log frames).filter fun x ↦ slot x.1.1.source = i).map Prod.snd

def takenOf (r : Reassembler) (i : Fin 8) (frames : List (MacHeader × List UInt8)) :
    List (MacHeader × List UInt8) :=
  ((r.log frames).filter fun x ↦ slot x.1.1.source = i ∧ x.2.isTaken).map Prod.fst

variable {r : Reassembler} {i : Fin 8} {h : MacHeader} {part : List UInt8}
  {frames : List (MacHeader × List UInt8)}

theorem sources_accept_self (r : Reassembler) (h : MacHeader) (part : List UInt8) :
    (r.accept h part).1.sources.get (slot h.source) =
      ((r.sources.get (slot h.source)).accept h part).1 := by
  change (r.sources.set (slot h.source) _)[slot h.source] = _
  rw [Fin.getElem_fin, Vector.getElem_set_self]
  rfl

theorem sources_accept_of_ne (hi : slot h.source ≠ i) (part : List UInt8) :
    (r.accept h part).1.sources.get i = r.sources.get i := by
  have hne : (slot h.source).val ≠ i.val := fun heq ↦ hi (Fin.ext heq)
  exact Vector.getElem_set_ne (slot h.source).2 i.2 hne

theorem accept_snd (r : Reassembler) (h : MacHeader) (part : List UInt8) :
    (r.accept h part).2 = ((r.sources.get (slot h.source)).accept h part).2 := rfl

theorem log_cons (r : Reassembler) (f : MacHeader × List UInt8)
    (frames : List (MacHeader × List UInt8)) :
    r.log (f :: frames) = (f, (r.accept f.1 f.2).2) :: (r.accept f.1 f.2).1.log frames := rfl

theorem sources_acceptAll (r : Reassembler) (i : Fin 8) (frames : List (MacHeader × List UInt8)) :
    (r.acceptAll frames).1.sources.get i = ((r.sources.get i).acceptAll (framesOf i frames)).1 ∧
      r.answersTo i frames = ((r.sources.get i).acceptAll (framesOf i frames)).2 := by
  induction frames generalizing r with
  | nil => exact ⟨rfl, rfl⟩
  | cons f frames ih =>
    obtain ⟨hstate, hanswers⟩ := ih (r.accept f.1 f.2).1
    by_cases hi : slot f.1.source = i
    · subst hi
      rw [sources_accept_self] at hstate hanswers
      have hframes : framesOf (slot f.1.source) (f :: frames) =
          f :: framesOf (slot f.1.source) frames := List.filter_cons_of_pos (by simp)
      rw [hframes]
      refine ⟨hstate, ?_⟩
      rw [answersTo, log_cons, List.filter_cons_of_pos (by simp), List.map_cons]
      exact congrArg₂ List.cons (accept_snd r f.1 f.2) hanswers
    · rw [sources_accept_of_ne hi] at hstate hanswers
      have hframes : framesOf i (f :: frames) = framesOf i frames :=
        List.filter_cons_of_neg (by simpa using hi)
      rw [hframes]
      refine ⟨hstate, ?_⟩
      rw [answersTo, log_cons, List.filter_cons_of_neg (by simpa using hi)]
      exact hanswers

/-- Sources do not interfere. What is made of the frames of each is what a new reassembler makes of
them alone, so that the order in which frames of different sources come is of no account. -/
theorem answersTo_eq_alone (frames : List (MacHeader × List UInt8)) :
    (∀ i, empty.answersTo i frames = (empty.acceptAll (framesOf i frames)).2) ∧
      ∀ frames', (∀ i, framesOf i frames' = framesOf i frames) →
        (empty.acceptAll frames').1 = (empty.acceptAll frames).1 ∧
          ∀ i, empty.answersTo i frames' = empty.answersTo i frames := by
  refine ⟨fun i ↦ ?_, fun frames' h ↦ ⟨?_, fun i ↦ ?_⟩⟩
  · have hsource : ∀ f ∈ framesOf i frames, slot f.1.source = i := fun f hf ↦ by
      simpa using (List.mem_filter.1 hf).2
    rw [(sources_acceptAll empty i frames).2, acceptAll_snd empty hsource]
    rfl
  · have hsources : ∀ i : Fin 8,
        (empty.acceptAll frames').1.sources.get i = (empty.acceptAll frames).1.sources.get i := by
      intro i
      rw [(sources_acceptAll empty i frames').1, (sources_acceptAll empty i frames).1, h]
    exact congrArg Reassembler.mk (Vector.ext fun i hi ↦ hsources ⟨i, hi⟩)
  · rw [(sources_acceptAll empty i frames').2, (sources_acceptAll empty i frames).2, h]

theorem answersTo_eq_alone_turns :
    let first : List (MacHeader × List UInt8) :=
      [(.data 1 0 0 false, [1]), (.data 2 0 0 false, [2]), (.data 1 0 1 true, [3]), (.data 2 0 1 true, [4])]
    let second : List (MacHeader × List UInt8) :=
      [(.data 2 0 0 false, [2]), (.data 2 0 1 true, [4]), (.data 1 0 0 false, [1]), (.data 1 0 1 true, [3])]
    (∀ i, framesOf i second = framesOf i first) ∧
      (empty.acceptAll second).1 = (empty.acceptAll first).1 ∧
      ∀ i, empty.answersTo i second = empty.answersTo i first := by
  intro first second
  have hsame : ∀ i, framesOf i second = framesOf i first := by decide +kernel
  exact ⟨hsame, (answersTo_eq_alone first).2 second hsame⟩

end Reassembler

/-- The frames of a payload but for its last one, or some of the first of them. -/
structure Beginning (frames : List (MacHeader × List UInt8)) : Prop where
  length_le : frames.length ≤ maxFrames
  index_eq : frames.map (·.1.index) = (List.range frames.length).map UInt8.ofNat
  isLast_eq : frames.map (·.1.isLast) = List.replicate frames.length false

/-- Frames numbered from 0 on, with the last one flagged and no other. -/
def Complete (frames : List (MacHeader × List UInt8)) : Prop :=
  ∃ m ≤ 255, frames.map (·.1.index) = (List.range (m + 1)).map UInt8.ofNat ∧
    frames.map (·.1.isLast) = List.replicate m false ++ [true]

variable {recent taken : List (MacHeader × List UInt8)} {f : MacHeader × List UInt8}

theorem beginning_nil : Beginning [] := ⟨Nat.zero_le _, rfl, rfl⟩

namespace Beginning

theorem concat (h : Beginning recent) (hlt : recent.length < maxFrames)
    (hindex : f.1.index = UInt8.ofNat recent.length) (hlast : f.1.isLast = false) :
    Beginning (recent ++ [f]) where
  length_le := by simpa using hlt
  index_eq := by simp [h.index_eq, List.range_succ, hindex]
  isLast_eq := by simp [h.isLast_eq, List.replicate_succ', hlast]

theorem complete (h : Beginning recent) (hlt : recent.length < maxFrames)
    (hindex : f.1.index = UInt8.ofNat recent.length) (hlast : f.1.isLast = true) :
    Complete (recent ++ [f]) := by
  refine ⟨recent.length, Nat.le_of_lt_succ hlt, ?_, ?_⟩
  · simp [h.index_eq, List.range_succ, hindex]
  · simp [h.isLast_eq, hlast]

end Beginning

namespace SourceState

variable {s : SourceState} {h : MacHeader} {part : List UInt8}

theorem accept_cases (s : SourceState) (h : MacHeader) (part : List UInt8) :
    ((h.index = 0 ∨ h.index = s.expected) ∧
        s.accept h part = take { s with held := if h.index = 0 then [] else s.held } h part) ∨
      (s.accept h part = (s, .duplicate) ∨ s.accept h part = (s, .dropped)) := by
  obtain ⟨expected, held, lastTaken⟩ := s
  unfold accept
  by_cases hzero : h.index = 0
  · by_cases hheld : held = []
    · by_cases hexpected : 0 = expected
      · simp [hzero, hheld, hexpected]
      · right
        simp only [hzero, hheld, hexpected]
        split_ifs <;> simp_all
    · left
      simp [hzero, hheld]
  · by_cases hexpected : h.index = expected
    · left
      subst hexpected
      simp [hzero]
    · right
      split_ifs <;> simp_all

/-- What a state knows of its past: it holds the frames that were taken last, from index 0 on. -/
def Recalls (s : SourceState) (taken : List (MacHeader × List UInt8)) : Prop :=
  ∃ recent, recent <:+ taken ∧ Beginning recent ∧ s.held = recent.flatMap Prod.snd ∧
    s.expected = UInt8.ofNat recent.length

theorem Recalls.renew (hs : s.Recalls taken) (hindex : h.index = 0 ∨ h.index = s.expected) :
    ∃ recent, recent <:+ taken ∧ Beginning recent ∧ recent.length < maxFrames ∧
      (if h.index = 0 then [] else s.held) = recent.flatMap Prod.snd ∧
      h.index = UInt8.ofNat recent.length := by
  obtain ⟨recent, hsuffix, hrecent, hheld, hexpected⟩ := hs
  by_cases hzero : h.index = 0
  · exact ⟨[], List.nil_suffix, beginning_nil, by decide, by simp [hzero], hzero⟩
  · have hnext := (hindex.resolve_left hzero).trans hexpected
    -- after 256 frames the index that is expected is 0 again
    have hne : recent.length ≠ maxFrames := fun heq ↦ hzero (by rw [hnext, heq]; rfl)
    exact ⟨recent, hsuffix, hrecent, lt_of_le_of_ne hrecent.length_le hne, by rw [if_neg hzero, hheld],
      hnext⟩

theorem Recalls.accept (hs : s.Recalls taken) (h : MacHeader) (part : List UInt8) :
    (s.accept h part).1.Recalls
        (taken ++ if (s.accept h part).2.isTaken then [(h, part)] else []) ∧
      ∀ payload, (s.accept h part).2 = .accepted (some payload) → ∃ recent,
        recent <:+ taken ++ [(h, part)] ∧ Complete recent ∧ payload = recent.flatMap Prod.snd := by
  obtain ⟨hindex, haccept⟩ | haccept | haccept := s.accept_cases h part
  · obtain ⟨recent, hsuffix, hrecent, hlt, hheld, hindex⟩ := hs.renew hindex
    have hsuffix : recent ++ [(h, part)] <:+ taken ++ [(h, part)] := by
      obtain ⟨before, rfl⟩ := hsuffix
      exact ⟨before, by simp⟩
    rw [haccept, hheld]
    cases hlast : h.isLast with
    | true =>
      rw [take_of_last hlast]
      refine ⟨⟨[], List.nil_suffix, beginning_nil, rfl, rfl⟩, ?_⟩
      intro payload hpayload
      cases hpayload
      exact ⟨_, hsuffix, hrecent.complete hlt hindex hlast, by simp⟩
    | false =>
      rw [take_of_not_last hlast]
      refine ⟨⟨_, hsuffix, hrecent.concat hlt hindex hlast, by simp, ?_⟩, nofun⟩
      simp [hindex, UInt8.ofNat_add]
  · rw [haccept]
    exact ⟨by simpa [Acceptance.isTaken] using hs, nofun⟩
  · rw [haccept]
    exact ⟨by simpa [Acceptance.isTaken] using hs, nofun⟩

end SourceState

namespace Reassembler

theorem acceptAll_concat (r : Reassembler) (frames : List (MacHeader × List UInt8))
    (f : MacHeader × List UInt8) :
    r.acceptAll (frames ++ [f]) =
      (((r.acceptAll frames).1.accept f.1 f.2).1,
        (r.acceptAll frames).2 ++ [((r.acceptAll frames).1.accept f.1 f.2).2]) := by
  induction frames generalizing r with
  | nil => rfl
  | cons g frames ih =>
    have htail := ih (r.accept g.1 g.2).1
    simp only [List.cons_append, acceptAll, htail]

theorem length_acceptAll (r : Reassembler) (frames : List (MacHeader × List UInt8)) :
    (r.acceptAll frames).2.length = frames.length := by
  induction frames generalizing r with
  | nil => rfl
  | cons f frames ih => exact congrArg (· + 1) (ih _)

theorem takenOf_concat (r : Reassembler) (i : Fin 8) (frames : List (MacHeader × List UInt8))
    (f : MacHeader × List UInt8) :
    r.takenOf i (frames ++ [f]) = r.takenOf i frames ++
      if slot f.1.source = i ∧ ((r.acceptAll frames).1.accept f.1 f.2).2.isTaken then [f] else [] := by
  rw [takenOf, takenOf, log, acceptAll_concat, List.zip_append (length_acceptAll r frames).symm,
    List.filter_append, List.map_append]
  congr 1
  split_ifs with hf <;> simp [hf]

theorem recalls_acceptAll (frames : List (MacHeader × List UInt8)) (i : Fin 8) :
    ((empty.acceptAll frames).1.sources.get i).Recalls (empty.takenOf i frames) := by
  induction frames using List.reverseRecOn with
  | nil =>
    have hempty : (empty.acceptAll []).1.sources.get i = {} := Vector.getElem_replicate i.2
    rw [hempty]
    exact ⟨[], List.nil_suffix, beginning_nil, rfl, rfl⟩
  | append_singleton frames f ih =>
    rw [takenOf_concat, acceptAll_concat]
    generalize (empty.acceptAll frames).1 = r at ih ⊢
    by_cases hi : slot f.1.source = i
    · subst hi
      rw [sources_accept_self, accept_snd]
      simpa using (ih.accept f.1 f.2).1
    · rw [sources_accept_of_ne hi, if_neg fun h ↦ hi h.1, List.append_nil]
      exact ih

theorem accept_of_not_taken {r : Reassembler} {h : MacHeader} {part : List UInt8}
    (hnot : (r.accept h part).2.isTaken = false) : (r.accept h part).1 = r := by
  rw [accept_snd] at hnot
  have hsame : ((r.sources.get (slot h.source)).accept h part).1 = r.sources.get (slot h.source) := by
    obtain ⟨-, haccept⟩ | haccept | haccept := (r.sources.get (slot h.source)).accept_cases h part
    · rw [haccept, SourceState.take] at hnot
      split_ifs at hnot <;> cases hnot
    · rw [haccept]
    · rw [haccept]
  change (⟨r.sources.set (slot h.source) ((r.sources.get (slot h.source)).accept h part).1⟩ :
    Reassembler) = r
  rw [hsame]
  exact congrArg Reassembler.mk (Vector.set_getElem_self (slot h.source).2)

/-- A payload that is handed out is made of the frames of its source that were taken last, whatever
else has come and in whatever order; a frame that is not taken changes nothing. -/
theorem completes_accept (frames : List (MacHeader × List UInt8)) (h : MacHeader)
    (part : List UInt8) :
    let r := (empty.acceptAll frames).1
    (∀ payload, (r.accept h part).2 = .accepted (some payload) →
      ∃ recent, recent <:+ empty.takenOf (slot h.source) (frames ++ [(h, part)]) ∧ Complete recent ∧
        payload = recent.flatMap Prod.snd) ∧
    ((r.accept h part).2 = .duplicate ∨ (r.accept h part).2 = .dropped → (r.accept h part).1 = r) := by
  intro r
  refine ⟨fun payload hpayload ↦ ?_, fun hnot ↦ ?_⟩
  · have htaken : (r.accept h part).2.isTaken := by rw [hpayload]; rfl
    rw [takenOf_concat, if_pos ⟨rfl, htaken⟩]
    exact ((recalls_acceptAll frames (slot h.source)).accept h part).2 payload hpayload
  · refine accept_of_not_taken ?_
    obtain hnot | hnot := hnot
    · rw [hnot]
      rfl
    · rw [hnot]
      rfl

theorem completes_accept_renewed :
    let frames : List (MacHeader × List UInt8) := [(.data 1 0 0 false, [7]), (.data 1 0 0 false, [1, 2]),
      (.data 2 0 0 false, [9]), (.data 1 0 1 false, [3]), (.data 1 0 1 false, [3])]
    let r := (empty.acceptAll frames).1
    (r.accept (.data 1 0 2 true) [4]).2 = .accepted (some [1, 2, 3, 4]) ∧
      (∃ recent, recent <:+ empty.takenOf (slot 1) (frames ++ [(.data 1 0 2 true, [4])]) ∧
        Complete recent ∧ [1, 2, 3, 4] = recent.flatMap Prod.snd) ∧
      (r.accept (.data 1 0 1 false) [3]).2 = .duplicate ∧ (r.accept (.data 1 0 1 false) [3]).1 = r := by
  intro frames r
  have hpayload : (r.accept (.data 1 0 2 true) [4]).2 = .accepted (some [1, 2, 3, 4]) := by
    decide +kernel
  have hagain : (r.accept (.data 1 0 1 false) [3]).2 = .duplicate := by decide +kernel
  exact ⟨hpayload, (completes_accept frames (.data 1 0 2 true) [4]).1 _ hpayload, hagain,
    (completes_accept frames (.data 1 0 1 false) [3]).2 (.inl hagain)⟩

end Reassembler

end SoundLink
