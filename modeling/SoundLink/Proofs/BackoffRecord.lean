import SoundLink.Proofs.JsonNumbers
import SoundLink.Proofs.Records

namespace SoundLink.Config.Backoff

open SoundLink.Field Json

/-- Values that a back-off record may hold under names that its kind does not know. -/
def Idle (j : Json) : Prop := j.isPlain = true ∧ j.depth < depthLimit

def entries (kind : String) : List Entry :=
  .leaf "kind" string? none ::
    if kind = "random" then [.leaf "min_ms" uint64? none, .leaf "max_ms" uint64? none]
    else [.leaf "delay_ms" uint64? none]

def Names (kind : String) (ms : Members) : Prop := ∃ m ∈ ms.named "kind", m.2.string? = some kind

/-- All members of a kind, once each and of their types, among others that are idle. -/
structure Complete (kind : String) (ms : Members) : Prop where
  known : kind = "random" ∨ kind = "fixed"
  names : Names kind ms
  fits : Fits (entries kind) ms
  present : ∀ e ∈ entries kind, ms.named e.name ≠ []
  idle : ∀ m ∈ ms, (∀ e ∈ entries kind, m.1 ≠ Points.ofString e.name) → Idle m.2

def overlaid (ms : Members) : Backoff :=
  if ms.told "kind" string? "" = "random" then
    .random (ms.told "min_ms" uint64? 0) (ms.told "max_ms" uint64? 0)
  else .fixed (ms.told "delay_ms" uint64? 0)

/-- The entry of a back-off record. Which of its names are known depends on the kind it gives. -/
def entry (default : Backoff) : Entry where
  name := "backoff"
  admits j := ∃ (ms : Members) (kind : String), j = .record ms ∧ Complete kind ms
  alike j k := ∃ (ms ms' : Members) (kind : String), j = .record ms ∧ k = .record ms' ∧ Names kind ms ∧
    Rewords (entries kind) Idle ms ms'
  isDefault j := ∃ (ms : Members) (kind : String), j = .record ms ∧ Complete kind ms ∧ overlaid ms = default
  repeats j := ∃ ms : Members, j = .record ms ∧
    (1 < (ms.named "kind").length ∨ ∃ kind, Names kind ms ∧ Repeats (entries kind) ms)

variable {kind name : String} {ms ms' : Members} {j : Json}

theorem idle_of_string? {t : String} (h : j.string? = some t) : Idle j := by
  cases j with
  | text ps =>
    refine ⟨?_, Nat.succ_pos _⟩
    rw [isPlain, Option.isSome_iff_exists]
    exact ⟨t, h⟩
  | _ => cases h

theorem idle_of_uint64? {v : UInt64} (h : j.uint64? = some v) : Idle j := by
  cases j with
  | number n =>
    obtain ⟨k, hk, -⟩ := Option.map_eq_some_iff.1 h
    exact ⟨Numeral.isSome_toBinary? (Option.filter_eq_some_iff.1 hk).1, Nat.succ_pos _⟩
  | _ => cases h

def Sound (ms : Members) : Prop := ∀ m ∈ ms, m.1.toString?.isSome = true ∧ Idle m.2

theorem plainMembers_iff :
    plainMembers ms = true ↔ ∀ m ∈ ms, m.1.toString?.isSome = true ∧ m.2.isPlain = true := by
  induction ms with
  | nil => simp [plainMembers]
  | cons m ms ih => simp [plainMembers, ih, and_assoc]

theorem depthMembers_lt_iff {k : ℕ} (hk : 0 < k) : depthMembers ms < k ↔ ∀ m ∈ ms, m.2.depth < k := by
  induction ms with
  | nil => simp [depthMembers, hk]
  | cons m ms ih => simp [depthMembers, ih]

theorem ofJson?_of_sound (h : Sound ms) : ofJson? (.record ms) = ofMembers? ms := by
  have hplain : (Json.record ms).isPlain = true := by
    rw [isPlain, plainMembers_iff]
    exact fun m hm ↦ ⟨(h m hm).1, (h m hm).2.1⟩
  have hdepth : depthMembers ms < depthLimit := (depthMembers_lt_iff (by decide)).2 fun m hm ↦ (h m hm).2.2
  unfold ofJson?
  rw [hplain, depth, if_neg (by simpa using hdepth)]

theorem ofJson?_of_not_sound (h : ¬Sound ms) : ofJson? (.record ms) = none := by
  unfold ofJson?
  refine if_pos ?_
  rw [isPlain, depth, Bool.or_eq_true, Bool.not_eq_true', decide_eq_true_eq]
  by_contra hnot
  obtain ⟨hplain, hdepth⟩ := not_or.1 hnot
  rw [Bool.not_eq_false, plainMembers_iff] at hplain
  have hdepth' : depthMembers ms < depthLimit := by omega
  rw [depthMembers_lt_iff (by decide)] at hdepth'
  exact h fun m hm ↦ ⟨(hplain m hm).1, (hplain m hm).2, hdepth' m hm⟩

theorem ofMembers?_eq (ms : Members) : ofMembers? ms = (do
    let kind ← ms.value? "kind" string?
    if kind = "random" then return .random (← ms.value? "min_ms" uint64?) (← ms.value? "max_ms" uint64?)
    else if kind = "fixed" then return .fixed (← ms.value? "delay_ms" uint64?)
    else none) := by
  simp only [ofMembers?, Members.value?, Option.bind_eq_bind, Option.bind_assoc]

structure Quiet (e : Entry) : Prop where
  admits : ∀ j, e.admits j → Idle j
  alike : ∀ j k, e.alike j k → Idle j ∧ Idle k
  isDefault : ∀ j, ¬e.isDefault j
  repeats : ∀ j, ¬e.repeats j

theorem quiet_leaf {β : Type} {value : Json → Option β} (h : ∀ j v, value j = some v → Idle j) :
    Quiet (.leaf name value none) where
  admits j hj := h j _ (Option.isSome_iff_exists.1 hj).choose_spec
  alike j k := fun ⟨v, hj, hk⟩ ↦ ⟨h j v hj, h k v hk⟩
  isDefault _ := fun ⟨_, hnone, _⟩ ↦ nomatch hnone
  repeats _ := id

theorem quiet_of_mem {e : Entry} (he : e ∈ entries kind) : Quiet e := by
  have htext : Quiet (.leaf "kind" string? none) := quiet_leaf fun _ _ ↦ idle_of_string?
  unfold entries at he
  split_ifs at he <;> simp only [List.mem_cons, List.not_mem_nil, or_false] at he
  · obtain rfl | rfl | rfl := he
    · exact htext
    · exact quiet_leaf fun _ _ ↦ idle_of_uint64?
    · exact quiet_leaf fun _ _ ↦ idle_of_uint64?
  · obtain rfl | rfl := he
    · exact htext
    · exact quiet_leaf fun _ _ ↦ idle_of_uint64?

theorem sound_cons {key : Points} :
    Sound ((key, j) :: ms) ↔ (key.toString?.isSome = true ∧ Idle j) ∧ Sound ms :=
  List.forall_mem_cons

theorem isSome_ofString (s : String) : (Points.ofString s).toString?.isSome = true := by
  rw [Points.toString?_ofString, Option.isSome_some]

theorem sound_rewords (h : Rewords (entries kind) Idle ms ms') : Sound ms ↔ Sound ms' := by
  induction h with
  | perm hperm => exact ⟨fun h m hm ↦ h m (hperm.mem_iff.2 hm), fun h m hm ↦ h m (hperm.mem_iff.1 hm)⟩
  | unknown _ hj ms => simp [sound_cons, isSome_ofString, hj]
  | default he _ hj => exact absurd hj ((quiet_of_mem he).isDefault _)
  | value he hj ms =>
    obtain ⟨hj, hj'⟩ := (quiet_of_mem he).alike _ _ hj
    simp [sound_cons, isSome_ofString, hj, hj']
  | symm _ ih => exact ih.symm
  | trans _ _ ih ih' => exact ih.trans ih'

theorem nodup_entries (kind : String) : ((entries kind).map Entry.name).Nodup := by
  unfold entries
  split_ifs <;> decide

theorem kind_mem (kind : String) : .leaf "kind" string? none ∈ entries kind := List.mem_cons_self

theorem min_mem : .leaf "min_ms" uint64? none ∈ entries "random" := .tail _ (.head _)

theorem max_mem : .leaf "max_ms" uint64? none ∈ entries "random" := .tail _ (.tail _ (.head _))

theorem delay_mem : .leaf "delay_ms" uint64? none ∈ entries "fixed" := .tail _ (.head _)

theorem value?_kind (h : Names kind ms) :
    ms.value? "kind" string? = some kind ∨ ms.value? "kind" string? = none := by
  obtain ⟨m, hm, hkind⟩ := h
  obtain hnil | ⟨j, hone⟩ | ⟨j, k, more, hmore⟩ := ms.named_cases "kind"
  · simp [hnil] at hm
  · rw [hone, List.mem_singleton] at hm
    rw [Members.value?, member?_eq, hone]
    exact .inl (hm ▸ hkind)
  · exact .inr (Members.value?_twice (by simp [hmore]))

theorem ofJson?_rewords (hkind : Names kind ms) (h : Rewords (entries kind) Idle ms ms') :
    ofJson? (.record ms) = ofJson? (.record ms') := by
  have hsame : ofMembers? ms = ofMembers? ms' := by
    have heq := h.value?_eq (nodup_entries kind) (kind_mem kind)
    rw [ofMembers?_eq, ofMembers?_eq, ← heq]
    obtain hread | hread := value?_kind hkind <;> rw [hread]
    · simp only [Option.bind_eq_bind, Option.bind_some]
      split_ifs with hrandom hfixed
      · subst hrandom
        rw [h.value?_eq (nodup_entries _) min_mem, h.value?_eq (nodup_entries _) max_mem]
      · subst hfixed
        rw [h.value?_eq (nodup_entries _) delay_mem]
      · rfl
    · rfl
  by_cases hsound : Sound ms
  · rw [ofJson?_of_sound hsound, ofJson?_of_sound ((sound_rewords h).1 hsound), hsame]
  · rw [ofJson?_of_not_sound hsound, ofJson?_of_not_sound (mt (sound_rewords h).2 hsound)]

theorem ofJson?_of_ofMembers? (h : ofMembers? ms = none) : ofJson? (.record ms) = none := by
  by_cases hsound : Sound ms
  · rw [ofJson?_of_sound hsound, h]
  · exact ofJson?_of_not_sound hsound

/-- A kind given twice, or a member of the kind given twice, makes a back-off record unreadable. -/
theorem ofJson?_repeats (h : 1 < (ms.named "kind").length ∨ ∃ kind, Names kind ms ∧ Repeats (entries kind) ms) :
    ofJson? (.record ms) = none := by
  apply ofJson?_of_ofMembers?
  rw [ofMembers?_eq]
  obtain htwice | ⟨kind, hkind, e, he, htwice | ⟨m, -, hm⟩⟩ := h
  · rw [Members.value?_twice htwice]
    rfl
  · obtain hread | hread := value?_kind hkind <;> rw [hread]
    · rw [Option.bind_eq_bind, Option.bind_some]
      unfold entries at he
      split_ifs at he with hrandom <;> simp only [List.mem_cons, List.not_mem_nil, or_false] at he
      · rw [if_pos hrandom]
        obtain rfl | rfl | rfl := he
        · exact absurd (hread.symm.trans (Members.value?_twice htwice)) nofun
        · rw [show ms.value? "min_ms" uint64? = none from Members.value?_twice htwice]
          rfl
        · rw [show ms.value? "max_ms" uint64? = none from Members.value?_twice htwice]
          simp
      · rw [if_neg hrandom]
        obtain rfl | rfl := he
        · exact absurd (hread.symm.trans (Members.value?_twice htwice)) nofun
        · rw [show ms.value? "delay_ms" uint64? = none from Members.value?_twice htwice]
          simp
    · rfl
  · exact absurd hm ((quiet_of_mem he).repeats _)

theorem Complete.sound (h : Complete kind ms) : Sound ms := by
  intro m hm
  refine ⟨h.fits.strings m hm, ?_⟩
  by_cases hknown : ∃ e ∈ entries kind, m.1 = Points.ofString e.name
  · obtain ⟨e, he, hname⟩ := hknown
    exact (quiet_of_mem he).admits _ (h.fits.admits e he m (Members.mem_named.2 ⟨hm, hname⟩))
  · exact h.idle m hm fun e he hname ↦ hknown ⟨e, he, hname⟩

theorem Complete.value? {β : Type} {read : Json → Option β} (h : Complete kind ms)
    (he : .leaf name read none ∈ entries kind) (default : β) :
    ms.value? name read = some (ms.told name read default) := by
  have honce : (ms.named name).length ≤ 1 := h.fits.once _ he
  obtain hnil | ⟨j, hone⟩ | ⟨_, _, _, hmore⟩ := ms.named_cases name
  · exact absurd hnil (h.present _ he)
  · have hadmits : (read j).isSome = true := h.fits.admits _ he (_, j) (hone ▸ List.mem_cons_self)
    obtain ⟨v, hv⟩ := Option.isSome_iff_exists.1 hadmits
    have hvalue : ms.value? name read = some v := by
      rw [Members.value?, member?_eq, hone]
      exact hv
    rw [Members.told, hvalue, Option.getD_some]
  · simp [hmore] at honce

theorem ofJson?_complete (h : Complete kind ms) : ofJson? (.record ms) = some (overlaid ms) := by
  have hkind : ms.value? "kind" string? = some kind := by
    obtain hread | hnone := value?_kind h.names
    · exact hread
    · exact absurd ((h.value? (kind_mem kind) "").symm.trans hnone) nofun
  have htold : ms.told "kind" string? "" = kind := by rw [Members.told, hkind, Option.getD_some]
  rw [ofJson?_of_sound h.sound, ofMembers?_eq, overlaid, htold, hkind, Option.bind_eq_bind, Option.bind_some]
  obtain rfl | rfl := h.known
  · rw [h.value? min_mem 0, h.value? max_mem 0]
    rfl
  · rw [h.value? delay_mem 0]
    rfl

theorem meets {α : Type} {d : α} {set : Backoff → α → α} {default : Backoff} (hset : set default d = d) :
    Meets d (.of "backoff" ofJson? set) (entry default) where
  name := rfl
  alike := by
    rintro _ _ ⟨ms, ms', kind, rfl, rfl, hkind, hms⟩
    simp only [of, ofJson?_rewords hkind hms]
  isDefault := by
    rintro _ ⟨ms, kind, rfl, hms, rfl⟩
    simp only [of, ofJson?_complete hms, Option.map_some, hset]
  repeats := by
    rintro _ ⟨ms, rfl, hms⟩
    simp only [of, ofJson?_repeats hms, Option.map_none]

end SoundLink.Config.Backoff
