import SoundLink.Proofs.Streaming

namespace SoundLink

inductive Feed
  | block (samples : List Sample)
  | reset

inductive Mark
  | report (r : Report)
  | reset
  deriving DecidableEq

namespace Report

def byte? : Report → Option UInt8
  | .byte b _ => some b
  | _ => none

def Ends : Report → Prop
  | .frame .. | .packet _ | .failed _ => True
  | _ => False

instance : DecidablePred Ends
  | .frame .. | .packet _ | .failed _ => .isTrue trivial
  | .candidate _ | .locked .. | .byte .. | .restarted _ | .header _ => .isFalse id

end Report

theorem FrameHeader.size_of_parse {first second : UInt8} {h : FrameHeader}
    (hparse : parse first second = .ok h) : h.size.toNat ∈ Set.Icc 1 127 := by
  have hmask : ∀ b : UInt8, b &&& 0x7f ≠ 0 → (b &&& 0x7f).toNat ∈ Set.Icc 1 127 := by
    intro b hb
    have hle : (b &&& 0x7f).toNat ≤ 127 := by
      rw [UInt8.toNat_and]
      exact Nat.and_le_right
    refine ⟨Nat.one_le_iff_ne_zero.2 fun hzero ↦ hb ?_, hle⟩
    exact UInt8.toNat_inj.1 hzero
  unfold parse at hparse
  split_ifs at hparse with hzero
  cases hparse
  exact hmask first hzero

namespace Demodulator

variable (d : Demodulator)

def feed (σ : State) : List Feed → State × List Mark
  | [] => (σ, [])
  | .block samples :: rest =>
    let (σ, reports) := d.run σ samples
    let (σ, marks) := feed σ rest
    (σ, reports.map .report ++ marks)
  | .reset :: rest =>
    let (σ, marks) := feed .initial rest
    (σ, .reset :: marks)

/-- The reports of a frame that is accepted: the bytes of its header, those of its payload, the
checksum, and nothing that ends a frame before. -/
structure Accepts (h : FrameHeader) (chunk : List UInt8) (reports : List Report) : Prop where
  bytes_eq : ∃ first second, FrameHeader.parse first second = .ok h ∧
    reports.filterMap Report.byte? = first :: second :: (chunk ++ [d.crc.checksum chunk])
  size_mem : h.size.toNat ∈ Set.Icc 1 127
  length_eq : chunk.length = h.size.toNat
  ends : ∃ before, reports = before ++ [.frame h.index chunk.length] ∧ ∀ r ∈ before, ¬r.Ends

/-- Frames that are accepted one after another, each with its place as index. -/
inductive Gathers : List (FrameHeader × List UInt8) → List Report → Prop
  | nil : Gathers [] []
  | snoc {frames : List (FrameHeader × List UInt8)} {reports new : List Report}
      {f : FrameHeader × List UInt8} : Gathers frames reports → d.Accepts f.1 f.2 new →
      f.1.index.toNat = frames.length → Gathers (frames ++ [f]) (reports ++ new)

/-- What is told right before a packet is handed out. -/
def Assembles (marks : List Mark) (packet : List UInt8) : Prop :=
  ∃ before reports frames f, marks = before ++ reports.map .report ∧
    d.Gathers (frames ++ [f]) reports ∧ frames.length < maxFrames ∧
    (∀ g ∈ frames, g.1.isLast = false) ∧ f.1.isLast = true ∧
    packet = (frames ++ [f]).flatMap Prod.snd

variable {d} {frames : List (FrameHeader × List UInt8)} {reports : List Report}
  {marks new : List Mark} {packet : List UInt8} {σ : State} {n : ℕ} {bytes : List UInt8}

theorem Gathers.length_le (h : d.Gathers frames reports) : frames.length ≤ maxFrames := by
  cases h with
  | nil => exact Nat.zero_le _
  | @snoc frames _ _ f _ _ hindex =>
    have := f.1.index.toNat_lt
    rw [List.length_append, List.length_singleton, maxFrames]
    omega

theorem Gathers.length_flatMap (h : d.Gathers frames reports) :
    (frames.flatMap Prod.snd).length ∈ Set.Icc frames.length (frames.length * 127) := by
  induction h with
  | nil => exact ⟨Nat.le_refl _, Nat.le_refl _⟩
  | @snoc frames _ _ f _ haccepts _ ih =>
    obtain ⟨hlow, hhigh⟩ := ih
    obtain ⟨hone, hsize⟩ := haccepts.length_eq ▸ haccepts.size_mem
    rw [List.flatMap_append, List.length_append, List.length_append, List.flatMap_singleton,
      List.length_singleton]
    constructor
    · omega
    · omega

def lastIndexOf (n : ℕ) : Option UInt8 := if n = 0 then none else some (UInt8.ofNat (n - 1))

structure Inside (d : Demodulator) (n : ℕ) (bytes : List UInt8) (h : FrameHeader)
    (chunk : List UInt8) (crc : UInt8) : Prop where
  index_eq : h.index.toNat = n
  crc_eq : crc = d.crc.checksum chunk
  bytes_eq : ∃ first second, FrameHeader.parse first second = .ok h ∧
    bytes = first :: second :: chunk

/-- What is held of the frame that is being read. The index of the last frame is of no account once
there is a header. -/
def Reads (d : Demodulator) (n : ℕ) (bytes : List UInt8) (σ : State) : Prop :=
  match σ.phase with
  | .search _ => σ.lastIndex = lastIndexOf n ∧ bytes = []
  | .extract _ (.header first) => σ.lastIndex = lastIndexOf n ∧ bytes = first.toList
  | .extract _ (.payload h chunk crc) =>
    d.Inside n bytes h chunk crc ∧ chunk.length < h.size.toNat
  | .extract _ (.checksum h chunk crc) =>
    d.Inside n bytes h chunk crc ∧ chunk.length = h.size.toNat

/-- The past of a state: the frames of the packet that it holds, and the reports since. -/
structure Recounts (d : Demodulator) (σ : State) (marks : List Mark)
    (frames : List (FrameHeader × List UInt8)) (since : List Report) : Prop where
  marks_eq : ∃ before reports, marks = before ++ (reports ++ since).map .report ∧
    d.Gathers frames reports
  not_last : ∀ f ∈ frames, f.1.isLast = false
  packet_eq : σ.packet = frames.flatMap Prod.snd
  not_ends : ∀ r ∈ since, ¬r.Ends
  reads : d.Reads frames.length (since.filterMap Report.byte?) σ

variable {since rs : List Report} {τ : State} {r r' : Slicer} {stage : Stage} {p : List UInt8}
  {i : Option UInt8} {b : UInt8}

theorem recounts_initial (d : Demodulator) (marks : List Mark) :
    d.Recounts .initial marks [] [] where
  marks_eq := ⟨marks, [], by simp, .nil⟩
  not_last := nofun
  packet_eq := rfl
  not_ends := nofun
  reads := ⟨rfl, rfl⟩

theorem Recounts.tell (h : d.Recounts σ marks frames since) (rs : List Report)
    (hpacket : τ.packet = σ.packet) (hends : ∀ r ∈ rs, ¬r.Ends)
    (hreads : d.Reads frames.length (since.filterMap Report.byte? ++ rs.filterMap Report.byte?) τ) :
    d.Recounts τ (marks ++ rs.map .report) frames (since ++ rs) := by
  obtain ⟨before, reports, hmarks, hgathers⟩ := h.marks_eq
  refine ⟨⟨before, reports, ?_, hgathers⟩, h.not_last, hpacket.trans h.packet_eq,
    List.forall_mem_append.2 ⟨h.not_ends, hends⟩, ?_⟩
  · rw [hmarks]
    simp
  · rwa [List.filterMap_append]

theorem Recounts.restart (h : d.Recounts σ marks frames since) (rs : List Report)
    (hpacket : τ.packet = []) (hends : ∀ r ∈ rs, ¬r.Ends)
    (hreads : d.Reads 0 (since.filterMap Report.byte? ++ rs.filterMap Report.byte?) τ) :
    d.Recounts τ (marks ++ rs.map .report) [] (since ++ rs) := by
  obtain ⟨before, reports, hmarks, -⟩ := h.marks_eq
  refine ⟨⟨before ++ reports.map .report, [], ?_, .nil⟩, nofun, hpacket,
    List.forall_mem_append.2 ⟨h.not_ends, hends⟩, ?_⟩
  · rw [hmarks]
    simp
  · rwa [List.filterMap_append]

theorem index_of_follows {index : UInt8} (hn : n ≤ maxFrames)
    (h : follows (lastIndexOf n) index = .ok ()) : index = 0 ∨ index.toNat = n := by
  by_cases hzero : n = 0
  · subst hzero
    unfold follows lastIndexOf at h
    left
    simpa using h
  · have hnext : (Option.map (· + 1) (lastIndexOf n)).getD 0 = UInt8.ofNat n := by
      rw [lastIndexOf, if_neg hzero, Option.map_some, Option.getD_some]
      conv_rhs => rw [← Nat.sub_add_cancel (Nat.one_le_iff_ne_zero.2 hzero), UInt8.ofNat_add]
      rfl
    unfold follows at h
    rw [hnext] at h
    dsimp only at h
    split_ifs at h with hindex
    obtain hindex | hindex := hindex
    · exact .inl hindex
    · rw [maxFrames] at hn
      obtain rfl | hlt := hn.eq_or_lt
      · exact .inl hindex
      · right
        rw [hindex, UInt8.toNat_ofNat_of_lt' hlt]

theorem Recounts.header_none (h : d.Recounts ⟨.extract r (.header none), p, i⟩ marks frames since)
    (r' : Slicer) (b : UInt8) :
    d.Recounts ⟨.extract r' (.header (some b)), p, i⟩
      (marks ++ [.report (.byte b (.header none))]) frames (since ++ [.byte b (.header none)]) := by
  obtain ⟨hlast, hbytes⟩ := h.reads
  refine h.tell [_] rfl (by simp [Report.Ends]) ⟨hlast, ?_⟩
  rw [hbytes]
  rfl

theorem Recounts.header_some {first : UInt8} {rs : List Report}
    (h : d.Recounts ⟨.extract r (.header (some first)), p, i⟩ marks frames since)
    (hreceive : d.receive ⟨.extract r (.header (some first)), p, i⟩ r' b (.header (some first)) =
      .ok (τ, rs)) :
    ∃ frames', d.Recounts τ (marks ++ (Report.byte b (.header (some first)) :: rs).map .report)
      frames' (since ++ Report.byte b (.header (some first)) :: rs) := by
  obtain ⟨before, reports, -, hgathers⟩ := h.marks_eq
  obtain ⟨hlast, hbytes⟩ := h.reads
  dsimp only at hlast
  subst hlast
  simp only [receive, bind, Except.bind] at hreceive
  cases hparse : FrameHeader.parse first b with
  | error e =>
    rw [hparse] at hreceive
    cases hreceive
  | ok header =>
    simp only [hparse] at hreceive
    cases hfollows : follows (lastIndexOf frames.length) header.index with
    | error e =>
      rw [hfollows] at hreceive
      cases hreceive
    | ok =>
      simp only [hfollows, pure, Except.pure, Except.ok.injEq, Prod.mk.injEq] at hreceive
      obtain ⟨rfl, rfl⟩ := hreceive
      generalize hrs : (if header.index = 0 ∧ p ≠ [] then [Report.restarted p.length] else []) ++
        [Report.header header] = rs
      have hquiet : rs.filterMap Report.byte? = [] ∧ ∀ r ∈ rs, ¬r.Ends := by
        rw [← hrs]
        split_ifs <;> simp [Report.byte?, Report.Ends]
      have hends : ∀ r ∈ Report.byte b (.header (some first)) :: rs, ¬r.Ends :=
        List.forall_mem_cons.2 ⟨not_false, hquiet.2⟩
      have hread : since.filterMap Report.byte? ++
          (Report.byte b (.header (some first)) :: rs).filterMap Report.byte? = [first, b] := by
        rw [hbytes, List.filterMap_cons, hquiet.1]
        rfl
      have hsize : ([] : List UInt8).length < header.size.toNat :=
        (FrameHeader.size_of_parse hparse).1
      by_cases hzero : header.index = 0
      · refine ⟨[], h.restart _ (if_pos hzero) hends ?_⟩
        rw [hread]
        exact ⟨⟨by rw [hzero]; rfl, rfl, first, b, hparse, rfl⟩, hsize⟩
      · have hnext := (index_of_follows hgathers.length_le hfollows).resolve_left hzero
        refine ⟨frames, h.tell _ (if_neg hzero) hends ?_⟩
        rw [hread]
        exact ⟨⟨hnext, rfl, first, b, hparse, rfl⟩, hsize⟩

theorem Inside.push {header : FrameHeader} {chunk : List UInt8} {crc : UInt8}
    (h : d.Inside n bytes header chunk crc) (b : UInt8) :
    d.Inside n (bytes ++ [b]) header (chunk ++ [b]) (d.crc.update crc b) := by
  obtain ⟨hindex, rfl, first, second, hparse, rfl⟩ := h
  refine ⟨hindex, ?_, first, second, hparse, rfl⟩
  simp [Crc.checksum, Crc.updateBytes]

theorem Recounts.payload {header : FrameHeader} {chunk : List UInt8} {crc : UInt8}
    (h : d.Recounts ⟨.extract r (.payload header chunk crc), p, i⟩ marks frames since)
    (hreceive : d.receive ⟨.extract r (.payload header chunk crc), p, i⟩ r' b
      (.payload header chunk crc) = .ok (τ, rs)) :
    d.Recounts τ (marks ++ (Report.byte b (.payload header chunk crc) :: rs).map .report) frames
      (since ++ Report.byte b (.payload header chunk crc) :: rs) := by
  obtain ⟨hinside, hlt⟩ := h.reads
  cases hreceive
  refine h.tell _ rfl (by simp [Report.Ends]) ?_
  have hpush := hinside.push b
  have hlength : (chunk ++ [b]).length = chunk.length + 1 := List.length_append
  by_cases hfull : header.size.toNat ≤ (chunk ++ [b]).length
  · simp only [Reads, if_pos hfull]
    exact ⟨hpush, by omega⟩
  · simp only [Reads, if_neg hfull]
    exact ⟨hpush, by omega⟩

theorem Recounts.accept {header : FrameHeader} {chunk : List UInt8} {crc : UInt8}
    (h : d.Recounts ⟨.extract r (.checksum header chunk crc), p, i⟩ marks frames since) :
    ∃ before reports, marks ++ [.report (.byte crc (.checksum header chunk crc)),
        .report (.frame header.index chunk.length)] = before ++ reports.map .report ∧
      d.Gathers (frames ++ [(header, chunk)]) reports := by
  obtain ⟨before, reports, hmarks, hgathers⟩ := h.marks_eq
  obtain ⟨⟨hindex, rfl, first, second, hparse, hbytes⟩, hlength⟩ := h.reads
  have haccepts : d.Accepts header chunk (since ++ [.byte (d.crc.checksum chunk)
      (.checksum header chunk (d.crc.checksum chunk)), .frame header.index chunk.length]) := by
    refine ⟨⟨first, second, hparse, ?_⟩, FrameHeader.size_of_parse hparse, hlength, ?_⟩
    · rw [List.filterMap_append, hbytes]
      rfl
    · refine ⟨_, List.append_cons .., List.forall_mem_append.2 ⟨h.not_ends, ?_⟩⟩
      simp [Report.Ends]
  refine ⟨before, _, ?_, hgathers.snoc haccepts hindex⟩
  rw [hmarks]
  simp

def Handed (d : Demodulator) (marks : List Mark) : Prop :=
  ∀ pre p post, marks = pre ++ .report (.packet p) :: post → d.Assembles pre p

theorem Handed.snoc (h : d.Handed marks) {m : Mark}
    (hm : ∀ p, m = .report (.packet p) → d.Assembles marks p) : d.Handed (marks ++ [m]) := by
  intro pre p post hmarks
  obtain rfl | ⟨post, m', rfl⟩ := post.eq_nil_or_concat
  · obtain ⟨rfl, hlast⟩ := List.append_inj' hmarks rfl
    exact hm p (List.singleton_inj.1 hlast)
  · rw [List.concat_eq_append, ← List.cons_append, ← List.append_assoc] at hmarks
    exact h pre p post (List.append_inj' hmarks rfl).1

theorem Handed.append (h : d.Handed marks) (hnew : ∀ p, .report (.packet p) ∉ new) :
    d.Handed (marks ++ new) := by
  induction new generalizing marks with
  | nil => rwa [List.append_nil]
  | cons m new ih =>
    rw [List.append_cons]
    refine ih (h.snoc fun p hm ↦ ?_) fun p hp ↦ hnew p (List.mem_cons_of_mem _ hp)
    exact absurd (hm ▸ List.mem_cons_self) (hnew p)

/-- What a state hands out next can be traced back as well. -/
structure Accounts (d : Demodulator) (σ : State) (marks : List Mark) : Prop where
  handed : d.Handed marks
  held : ∃ frames since, d.Recounts σ marks frames since

theorem Accounts.tell (h : d.Accounts σ marks)
    (hheld : d.Recounts τ (marks ++ rs.map .report) frames (since ++ rs)) :
    d.Accounts τ (marks ++ rs.map .report) := by
  refine ⟨h.handed.append fun p hp ↦ ?_, frames, since ++ rs, hheld⟩
  obtain ⟨r, hr, heq⟩ := List.mem_map.1 hp
  cases heq
  exact hheld.not_ends _ (List.mem_append_right _ hr) trivial

theorem Accounts.initial (h : d.Accounts σ marks) (hnew : ∀ p, .report (.packet p) ∉ new) :
    d.Accounts .initial (marks ++ new) :=
  ⟨h.handed.append hnew, [], [], recounts_initial d _⟩

theorem Accounts.checksum {header : FrameHeader} {chunk : List UInt8} {crc : UInt8}
    (h : d.Accounts ⟨.extract r (.checksum header chunk crc), p, i⟩ marks)
    (hreceive : d.receive ⟨.extract r (.checksum header chunk crc), p, i⟩ r' b
      (.checksum header chunk crc) = .ok (τ, rs)) :
    d.Accounts τ (marks ++ (Report.byte b (.checksum header chunk crc) :: rs).map .report) := by
  obtain ⟨frames, since, hheld⟩ := h.held
  obtain ⟨before, reports, hmarks, hgathers⟩ := hheld.accept
  obtain ⟨⟨hindex, -, -⟩, -⟩ := hheld.reads
  have hpacket : p ++ chunk = (frames ++ [(header, chunk)]).flatMap Prod.snd := by
    rw [List.flatMap_append, List.flatMap_singleton, ← hheld.packet_eq]
  have hhanded : d.Handed (marks ++ [.report (.byte crc (.checksum header chunk crc)),
      .report (.frame header.index chunk.length)]) := h.handed.append (by simp)
  simp only [receive] at hreceive
  split_ifs at hreceive with hcrc hlast
  · obtain rfl : crc = b := not_not.1 hcrc
    cases hreceive
    refine ⟨?_, [], [], recounts_initial d _⟩
    have hall := hhanded.snoc (m := .report (.packet (p ++ chunk))) fun q hq ↦ by
      cases hq
      have hcount := hgathers.length_le
      rw [List.length_append, List.length_singleton] at hcount
      exact ⟨before, reports, frames, _, hmarks, hgathers, hcount, hheld.not_last, hlast, hpacket⟩
    rwa [List.append_assoc] at hall
  · obtain rfl : crc = b := not_not.1 hcrc
    cases hreceive
    refine ⟨hhanded, frames ++ [(header, chunk)], [], ⟨before, reports, ?_, hgathers⟩, ?_, hpacket,
      List.forall_mem_nil _, ?_, rfl⟩
    · rw [List.append_nil]
      exact hmarks
    · refine List.forall_mem_append.2 ⟨hheld.not_last, List.forall_mem_singleton.2 ?_⟩
      simpa using hlast
    · simp [lastIndexOf, ← hindex]

theorem Accounts.receive (h : d.Accounts ⟨.extract r stage, p, i⟩ marks) {r' : Slicer} {b : UInt8}
    {τ : State} {rs : List Report}
    (hreceive : d.receive ⟨.extract r stage, p, i⟩ r' b stage = .ok (τ, rs)) :
    d.Accounts τ (marks ++ (.byte b stage :: rs).map .report) := by
  cases stage with
  | header first =>
    obtain ⟨frames, since, hheld⟩ := h.held
    cases first with
    | none =>
      cases hreceive
      exact h.tell (hheld.header_none r' b)
    | some first =>
      obtain ⟨frames', hnext⟩ := hheld.header_some hreceive
      exact h.tell hnext
  | payload header chunk crc =>
    obtain ⟨frames, since, hheld⟩ := h.held
    exact h.tell (hheld.payload hreceive)
  | checksum header chunk crc => exact h.checksum hreceive

theorem Accounts.observe (h : d.Accounts σ marks) (s : Sample) :
    d.Accounts (d.observe σ s).1 (marks ++ (d.observe σ s).2.map .report) := by
  obtain ⟨phase, p, i⟩ := σ
  cases phase with
  | search det =>
    obtain ⟨frames, since, hheld⟩ := h.held
    rw [observe_search]
    refine h.tell (hheld.tell _ rfl ?_ ?_)
    · cases (det.push d.filter d.threshold s).2 <;> simp [Report.Ends]
    · obtain ⟨hlast, hbytes⟩ := hheld.reads
      refine ⟨hlast, ?_⟩
      rw [hbytes]
      cases (det.push d.filter d.threshold s).2 <;> rfl
  | extract r stage =>
    have hobserves := d.observes_extract r stage p i s
    generalize d.observe ⟨.extract r stage, p, i⟩ s = observed at hobserves ⊢
    cases hobserves with
    | sum =>
      obtain ⟨frames, since, hheld⟩ := h.held
      refine h.tell (hheld.tell [] rfl nofun ?_)
      rw [List.filterMap_nil, List.append_nil]
      have hreads := hheld.reads
      cases stage <;> exact hreads
    | noByte => exact h.initial (by simp)
    | refused => exact h.initial (by simp)
    | byte _ _ hreceive => exact h.receive hreceive

theorem Accounts.observeAll (h : d.Accounts σ marks) (xs : List Sample) :
    d.Accounts (d.observeAll σ xs).1 (marks ++ (d.observeAll σ xs).2.map .report) := by
  induction xs generalizing σ marks with
  | nil => simpa using h
  | cons s xs ih =>
    rw [observeAll_cons, List.map_append, ← List.append_assoc]
    exact ih (h.observe s)

theorem Accounts.lock (h : d.Accounts σ marks) {c : Candidate} (hc : σ.settled d.filter = some c) :
    d.Accounts (lock σ c).1 (marks ++ (Demodulator.lock σ c).2.1.map .report) := by
  obtain ⟨frames, since, hheld⟩ := h.held
  obtain ⟨phase, p, i⟩ := σ
  cases phase with
  | extract r stage => cases hc
  | search det =>
    obtain ⟨hlast, hbytes⟩ := hheld.reads
    refine h.tell (hheld.tell _ rfl (by simp [Demodulator.lock, Report.Ends]) ⟨hlast, ?_⟩)
    rw [hbytes]
    rfl

theorem Accounts.step (h : d.Accounts σ marks) (s : Sample) :
    d.Accounts (d.step σ s).1 (marks ++ (d.step σ s).2.map .report) := by
  have hobserve := h.observe s
  cases hc : (d.observe σ s).1.settled d.filter with
  | none =>
    rw [step_of_settled_eq_none hc]
    exact hobserve
  | some c =>
    rw [step_of_settled_eq_some hc, List.map_append, List.map_append, ← List.append_assoc,
      ← List.append_assoc]
    exact (hobserve.lock hc).observeAll _

theorem Accounts.run (h : d.Accounts σ marks) (xs : List Sample) :
    d.Accounts (d.run σ xs).1 (marks ++ (d.run σ xs).2.map .report) := by
  induction xs generalizing σ marks with
  | nil => simpa using h
  | cons s xs ih =>
    rw [run_cons, List.map_append, ← List.append_assoc]
    exact ih (h.step s)

theorem Accounts.feed (h : d.Accounts σ marks) (feeds : List Feed) :
    d.Accounts (d.feed σ feeds).1 (marks ++ (d.feed σ feeds).2) := by
  induction feeds generalizing σ marks with
  | nil => simpa [Demodulator.feed] using h
  | cons first rest ih =>
    cases first with
    | block samples =>
      rw [Demodulator.feed, ← List.append_assoc]
      exact ih (h.run samples)
    | reset =>
      rw [Demodulator.feed, List.append_cons]
      exact ih (h.initial (by simp))

/-- A packet is made of frames with the indices 0, 1 and so on, accepted one after another with no
failure and no reset between them, and only the last of them is flagged. -/
theorem assembles_of_feed (feeds : List Feed) {pre post : List Mark} {p : List UInt8}
    (h : (d.feed .initial feeds).2 = pre ++ .report (.packet p) :: post) :
    d.Assembles pre p ∧ p ≠ [] ∧ p.length ≤ maxFrames * 127 := by
  have hstart : d.Accounts .initial [] :=
    ⟨fun pre p post hnil ↦ absurd hnil.symm (List.append_ne_nil_of_right_ne_nil _ nofun), [], [],
      recounts_initial d []⟩
  have hassembles := (hstart.feed feeds).handed pre p post h
  refine ⟨hassembles, ?_⟩
  obtain ⟨before, reports, frames, f, -, hgathers, hcount, -, -, rfl⟩ := hassembles
  obtain ⟨hlow, hhigh⟩ := hgathers.length_flatMap
  rw [List.length_append, List.length_singleton] at hlow hhigh
  refine ⟨List.ne_nil_of_length_pos (by omega), hhigh.trans ?_⟩
  exact Nat.mul_le_mul_right 127 hcount

theorem assembles_of_feed_two_frames :
    let c : Config.Phy :=
      { bytesPerFrame := 2, frameInterval := 1, preamble := { ramp := 3 },
        carrier := { size := 1, headerSize := 1 } }
    let line := (c.modulator.frames [1, 2, 3]).flatMap fun f ↦ c.modulator.frame f.1 f.2
    let told := (c.demodulator.feed .initial
      [.block [1, -1], .reset, .block line, .block (List.replicate 25 0)]).2
    told = told.take 18 ++ .report (.packet [1, 2, 3]) :: [] ∧
      c.demodulator.Assembles (told.take 18) [1, 2, 3] ∧ [1, 2, 3] ≠ ([] : List UInt8) ∧
      [(1 : UInt8), 2, 3].length ≤ maxFrames * 127 := by
  intro c line told
  have htold : told = told.take 18 ++ .report (.packet [1, 2, 3]) :: [] := by decide +kernel
  exact ⟨htold, assembles_of_feed _ htold⟩

end Demodulator

end SoundLink
