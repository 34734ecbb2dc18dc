import SoundLink.Proofs.WindowedPower

namespace SoundLink

section

variable {α : Type} {P Q : α → Prop} {log : List α} {z : α}

/-- Something has happened, and another thing has not happened since. -/
def Since (P Q : α → Prop) (log : List α) : Prop :=
  ∃ pre x post, log = pre ++ x :: post ∧ P x ∧ ∀ y ∈ post, ¬Q y

theorem not_since_nil : ¬Since P Q [] := by
  rintro ⟨pre, x, post, hlog, -⟩
  simp at hlog

theorem since_concat : Since P Q (log ++ [z]) ↔ P z ∨ Since P Q log ∧ ¬Q z := by
  constructor
  · rintro ⟨pre, x, post, hlog, hx, hpost⟩
    obtain rfl | ⟨post, y, rfl⟩ := List.eq_nil_or_concat' post
    · obtain ⟨rfl, hz⟩ := List.append_inj' hlog rfl
      rw [List.singleton_inj] at hz
      exact .inl (hz ▸ hx)
    · rw [← List.cons_append, ← List.append_assoc] at hlog
      obtain ⟨hlog, hz⟩ := List.append_inj' hlog rfl
      rw [List.singleton_inj] at hz
      obtain ⟨hpost, hy⟩ := List.forall_mem_append.1 hpost
      exact .inr ⟨⟨pre, x, post, hlog, hx, hpost⟩, hz ▸ hy y (List.mem_singleton_self y)⟩
  · rintro (hz | ⟨⟨pre, x, post, rfl, hx, hpost⟩, hz⟩)
    · exact ⟨log, z, [], rfl, hz, List.forall_mem_nil _⟩
    · refine ⟨pre, x, post ++ [z], by rw [List.append_assoc, List.cons_append], hx, ?_⟩
      exact List.forall_mem_append.2 ⟨hpost, List.forall_mem_singleton.2 hz⟩

end

theorem Channel.isSome_observe (c : Channel) (busy : Bool) :
    (c.observe busy).freed.pending.isSome = true ↔
      c.busy = true ∧ busy = false ∨ c.freed.pending.isSome = true := by
  rw [observe]
  dsimp only
  split_ifs with hfalls
  · rw [Bool.and_eq_true, Bool.not_eq_true'] at hfalls
    exact iff_of_true rfl (.inl hfalls)
  · rw [Bool.and_eq_true, Bool.not_eq_true'] at hfalls
    exact (or_iff_right hfalls).symm

namespace PowerMonitor

inductive Use
  | hear (block : List Sample)
  | take
  | await

structure Moment where
  before : PowerMonitor
  use : Use
  answer : Option Bool
  after : PowerMonitor

namespace Moment

def Hears (x : Moment) : Prop := ∃ block, block ≠ [] ∧ x.use = .hear block

def Falls (x : Moment) : Prop := x.before.channel.busy = true ∧ x.after.channel.busy = false

def Consumes (x : Moment) : Prop :=
  x.before.channel.freed.pending.isSome = true ∧ x.after.channel.freed.pending = none

end Moment

def use (m : PowerMonitor) : Use → Except Fault Moment
  | .hear block => (m.update block).map fun after ↦ ⟨m, .hear block, none, after⟩
  | .take => .ok ⟨m, .take, some m.channel.takeFreed.2, { m with channel := m.channel.takeFreed.1 }⟩
  | .await => .ok ⟨m, .await, some m.channel.awaitFree.2, { m with channel := m.channel.awaitFree.1 }⟩

def record (r : List Moment × PowerMonitor) (u : Use) : Except Fault (List Moment × PowerMonitor) :=
  (r.2.use u).map fun x ↦ (r.1 ++ [x], x.after)

def run (m : PowerMonitor) (uses : List Use) : Except Fault (List Moment × PowerMonitor) :=
  uses.foldlM record ([], m)

variable {m : PowerMonitor} {u : Use} {x : Moment}

theorem use_cases (h : m.use u = .ok x) :
    (u = .hear [] ∧ x = ⟨m, .hear [], none, m⟩) ∨
    (∃ block power, block ≠ [] ∧ u = .hear block ∧
      x = ⟨m, .hear block, none, (block.foldl slide m).settle power⟩) ∨
    (u = .take ∧ x = ⟨m, .take, some m.channel.freed.pending.isSome,
      { m with channel := { m.channel with freed := {} } }⟩) ∨
    (u = .await ∧ x = ⟨m, .await, some !m.channel.busy,
      if m.channel.busy then { m with channel := { m.channel with freed := {} } } else m⟩) := by
  cases u with
  | hear block =>
    obtain ⟨m', hm', rfl⟩ := exists_of_map_eq_ok h
    obtain ⟨rfl, rfl⟩ | ⟨hne, power, rfl⟩ := update_cases hm'
    · exact .inl ⟨rfl, rfl⟩
    · exact .inr (.inl ⟨block, power, hne, rfl, rfl⟩)
  | take => exact .inr (.inr (.inl ⟨rfl, (Except.ok.inj h).symm⟩))
  | await =>
    obtain rfl := Except.ok.inj h
    refine .inr (.inr (.inr ⟨rfl, ?_⟩))
    rw [Channel.awaitFree]
    split_ifs <;> rfl

theorem use_self (h : m.use u = .ok x) : x.before = m ∧ x.use = u := by
  obtain ⟨rfl, rfl⟩ | ⟨block, power, -, rfl, rfl⟩ | ⟨rfl, rfl⟩ | ⟨rfl, rfl⟩ := use_cases h <;>
    exact ⟨rfl, rfl⟩

theorem use_threshold (h : m.use u = .ok x) : x.after.threshold = m.threshold := by
  obtain ⟨-, rfl⟩ | ⟨block, power, -, -, rfl⟩ | ⟨-, rfl⟩ | ⟨-, rfl⟩ := use_cases h
  · rfl
  · exact (m.foldl_slide_keeps block).2.1
  · rfl
  · dsimp only
    split_ifs <;> rfl

theorem use_busy (h : m.use u = .ok x) : x.after.channel.busy = true ↔
    x.Hears ∧ m.threshold < x.after.power ∨ m.channel.busy = true ∧ ¬x.Hears := by
  obtain ⟨-, rfl⟩ | ⟨block, power, hne, -, rfl⟩ | ⟨-, rfl⟩ | ⟨-, rfl⟩ := use_cases h
  · simp [Moment.Hears]
  · have hthreshold := (m.foldl_slide_keeps block).2.1
    simp [Moment.Hears, settle, Channel.observe, hne, hthreshold]
  · simp [Moment.Hears]
  · dsimp only
    split_ifs <;> simp [Moment.Hears]

theorem use_notified (h : m.use u = .ok x) : x.Falls → x.after.channel.freed.pending.isSome = true := by
  rintro ⟨hbusy, hfree⟩
  obtain ⟨-, rfl⟩ | ⟨block, power, -, -, rfl⟩ | ⟨-, rfl⟩ | ⟨-, rfl⟩ := use_cases h
  · exact absurd (hbusy.symm.trans hfree) (by decide)
  · rw [← (m.foldl_slide_keeps block).2.2] at hbusy
    exact (Channel.isSome_observe _ _).2 (.inl ⟨hbusy, hfree⟩)
  · exact absurd (hbusy.symm.trans hfree) (by decide)
  · rw [if_pos hbusy] at hfree
    exact absurd (hbusy.symm.trans hfree) (by decide)

theorem use_waited (h : m.use u = .ok x) (hnotice : x.after.channel.freed.pending.isSome = true) :
    x.Falls ∨ m.channel.freed.pending.isSome = true := by
  obtain ⟨-, rfl⟩ | ⟨block, power, -, -, rfl⟩ | ⟨-, rfl⟩ | ⟨-, rfl⟩ := use_cases h
  · exact .inr hnotice
  · obtain ⟨hbusy, hfree⟩ | hwaited := (Channel.isSome_observe _ _).1 hnotice
    · rw [(m.foldl_slide_keeps block).2.2] at hbusy
      exact .inl ⟨hbusy, hfree⟩
    · rw [(m.foldl_slide_keeps block).2.2] at hwaited
      exact .inr hwaited
  · cases hnotice
  · dsimp only at hnotice
    split_ifs at hnotice
    · cases hnotice
    · exact .inr hnotice

theorem use_notice (h : m.use u = .ok x) : x.after.channel.freed.pending.isSome = true ↔
    x.Falls ∨ m.channel.freed.pending.isSome = true ∧ ¬x.Consumes := by
  constructor
  · intro hnotice
    refine (use_waited h hnotice).imp_right fun hwaited ↦ ⟨hwaited, fun hconsumes ↦ ?_⟩
    rw [hconsumes.2] at hnotice
    cases hnotice
  · rintro (hfalls | ⟨hwaited, hkept⟩)
    · exact use_notified h hfalls
    · rw [← (use_self h).1] at hwaited
      exact Option.isSome_iff_ne_none.2 fun hnone ↦ hkept ⟨hwaited, hnone⟩

theorem not_consumes_of_hear {block : List Sample} (h : m.use (.hear block) = .ok x) : ¬x.Consumes := by
  rintro ⟨hwaited, hnone⟩
  refine Option.isSome_iff_ne_none.1 ?_ hnone
  obtain ⟨m', hm', rfl⟩ := exists_of_map_eq_ok h
  obtain ⟨-, rfl⟩ | ⟨-, power, rfl⟩ := update_cases hm'
  · exact hwaited
  · rw [← (m.foldl_slide_keeps block).2.2] at hwaited
    exact (Channel.isSome_observe _ _).2 (.inr hwaited)

theorem take_eq (h : m.use .take = .ok x) :
    x.answer = some m.channel.freed.pending.isSome ∧ x.after.channel.freed.pending = none := by
  obtain rfl := Except.ok.inj h
  exact ⟨rfl, rfl⟩

theorem await_eq (h : m.use .await = .ok x) : x.answer = some (!m.channel.busy) ∧
    (x.Consumes ↔ m.channel.busy = true ∧ m.channel.freed.pending.isSome = true) ∧
    x.after = { m with channel := { m.channel with freed := x.after.channel.freed } } ∧
    (¬x.Consumes → x.after = m) := by
  obtain rfl := Except.ok.inj h
  refine ⟨rfl, ?_⟩
  dsimp only [Moment.Consumes, Channel.awaitFree]
  by_cases hbusy : m.channel.busy = true
  · rw [if_pos hbusy]
    refine ⟨⟨fun hwaited ↦ ⟨hbusy, hwaited.1⟩, fun hwaited ↦ ⟨hwaited.2, rfl⟩⟩, rfl, fun hkept ↦ ?_⟩
    have hnone : m.channel.freed.pending = none :=
      Option.not_isSome_iff_eq_none.1 fun hwaited ↦ hkept ⟨hwaited, rfl⟩
    have hfreed : m.channel.freed = m.channel.freed.clear := by rw [Signal.clear, ← hnone]
    rw [Channel.takeFreed, Signal.take, ← hfreed]
  · rw [if_neg hbusy]
    refine ⟨⟨fun hwaited ↦ ?_, fun hwaited ↦ absurd hwaited.1 hbusy⟩, rfl, fun _ ↦ rfl⟩
    rw [hwaited.2] at hwaited
    cases hwaited.1

variable {uses : List Use} {log : List Moment}

theorem run_concat (m : PowerMonitor) (uses : List Use) (u : Use) :
    m.run (uses ++ [u]) = (m.run uses).bind fun r ↦ record r u := by
  simp only [run, List.foldlM_append, List.foldlM_cons, List.foldlM_nil, bind_pure]
  rfl

theorem exists_of_run_concat {log' : List Moment} {m' : PowerMonitor}
    (h : m.run (uses ++ [u]) = .ok (log', m')) : ∃ log m₁ x, m.run uses = .ok (log, m₁) ∧
      m₁.use u = .ok x ∧ log' = log ++ [x] ∧ m' = x.after := by
  rw [run_concat] at h
  cases hrun : m.run uses with
  | error e =>
    rw [hrun] at h
    cases h
  | ok r =>
    rw [hrun] at h
    obtain ⟨x, hx, hlast⟩ := exists_of_map_eq_ok h
    obtain ⟨rfl, rfl⟩ := Prod.mk.inj hlast
    exact ⟨r.1, r.2, x, rfl, hx, rfl, rfl⟩

theorem exists_use (h : ¬65536 ∣ m.span) (u : Use) : ∃ x, m.use u = .ok x ∧ x.after.span = m.span := by
  cases u with
  | hear block =>
    obtain ⟨m', hm', hspan⟩ := exists_update h block
    exact ⟨⟨m, .hear block, none, m'⟩, by rw [use, hm']; rfl, hspan⟩
  | take => exact ⟨_, rfl, rfl⟩
  | await => exact ⟨_, rfl, rfl⟩

theorem exists_run (h : ¬65536 ∣ m.span) (uses : List Use) :
    ∃ r, m.run uses = .ok r ∧ r.2.span = m.span := by
  induction uses using List.reverseRecOn with
  | nil => exact ⟨([], m), rfl, rfl⟩
  | append_singleton uses u ih =>
    obtain ⟨r, hr, hspan⟩ := ih
    obtain ⟨x, hx, hspan'⟩ := exists_use (hspan ▸ h : ¬65536 ∣ r.2.span) u
    refine ⟨(r.1 ++ [x], x.after), ?_, hspan'.trans hspan⟩
    rw [run_concat, hr]
    change record r u = _
    rw [record, hx]
    rfl

/-- What has happened so far, and what a monitor knows of it. -/
structure Remembers (threshold : Fixed) (log : List Moment) (m : PowerMonitor) : Prop where
  threshold_eq : m.threshold = threshold
  busy : m.channel.busy = true ↔
    Since (fun x ↦ x.Hears ∧ threshold < x.after.power) Moment.Hears log
  notice : m.channel.freed.pending.isSome = true ↔ Since Moment.Falls Moment.Consumes log

theorem Remembers.ofConfig (c : Config.PowerMonitor) :
    Remembers (.ofBinary c.threshold) [] (ofConfig c) :=
  ⟨rfl, iff_of_false Bool.false_ne_true not_since_nil, iff_of_false Bool.false_ne_true not_since_nil⟩

theorem Remembers.use {threshold : Fixed} (h : Remembers threshold log m) (hx : m.use u = .ok x) :
    Remembers threshold (log ++ [x]) x.after := by
  refine ⟨(use_threshold hx).trans h.threshold_eq, ?_, ?_⟩
  · rw [since_concat, use_busy hx, h.busy, h.threshold_eq]
  · rw [since_concat, use_notice hx, h.notice]

theorem Remembers.run {threshold : Fixed} (h : Remembers threshold [] m) {m' : PowerMonitor}
    (hrun : m.run uses = .ok (log, m')) : Remembers threshold log m' := by
  induction uses using List.reverseRecOn generalizing log m' with
  | nil =>
    obtain ⟨rfl, rfl⟩ := Prod.mk.inj (Except.ok.inj hrun)
    exact h
  | append_singleton uses u ih =>
    obtain ⟨log, m₁, x, hbefore, hx, rfl, rfl⟩ := exists_of_run_concat hrun
    exact (ih hbefore).use hx

theorem log_run {m' : PowerMonitor} (hrun : m.run uses = .ok (log, m')) :
    log.map Moment.use = uses ∧ ∀ x ∈ log, x.before.use x.use = .ok x := by
  induction uses using List.reverseRecOn generalizing log m' with
  | nil =>
    obtain ⟨rfl, rfl⟩ := Prod.mk.inj (Except.ok.inj hrun)
    exact ⟨rfl, List.forall_mem_nil _⟩
  | append_singleton uses u ih =>
    obtain ⟨log, m₁, x, hinit, hx, rfl, rfl⟩ := exists_of_run_concat hrun
    obtain ⟨huses, hlog⟩ := ih hinit
    obtain ⟨hbefore, huse⟩ := use_self hx
    refine ⟨by rw [List.map_append, huses, List.map_singleton, huse], ?_⟩
    rw [← hbefore, ← huse] at hx
    exact List.forall_mem_append.2 ⟨hlog, List.forall_mem_singleton.2 hx⟩

/-- Whatever blocks are heard and whoever asks in between, the channel is busy as the last block left
it. A notice waits if the channel has fallen silent since one was last taken: it outlives a return of the
sound, and there is never a second. Who waits for the channel is told whether it is free, and takes the notice
of a busy one only. -/
theorem notices_follow_transitions (c : Config.PowerMonitor) (uses : List Use) :
    (¬65536 ∣ c.window.toNat → ∃ r, (ofConfig c).run uses = .ok r) ∧
    ∀ log m, (ofConfig c).run uses = .ok (log, m) →
      (m.channel.busy = true ↔
        Since (fun x ↦ x.Hears ∧ Fixed.ofBinary c.threshold < x.after.power) Moment.Hears log) ∧
      (m.channel.freed.pending.isSome = true ↔ Since Moment.Falls Moment.Consumes log) ∧
      log.map Moment.use = uses ∧ ∀ x ∈ log,
        (∀ block, x.use = .hear block → ¬x.Consumes) ∧
        (x.use = .take → x.answer = some x.before.channel.freed.pending.isSome ∧
          x.after.channel.freed.pending = none) ∧
        (x.use = .await → x.answer = some (!x.before.channel.busy) ∧
          (x.Consumes ↔ x.before.channel.busy = true ∧ x.before.channel.freed.pending.isSome = true) ∧
          x.after = { x.before with
            channel := { x.before.channel with freed := x.after.channel.freed } } ∧
          (¬x.Consumes → x.after = x.before)) := by
  refine ⟨fun h ↦ ?_, fun log m hrun ↦ ?_⟩
  · obtain ⟨r, hr, -⟩ := exists_run (m := ofConfig c) h uses
    exact ⟨r, hr⟩
  · have hremembers := (Remembers.ofConfig c).run hrun
    obtain ⟨huses, hlog⟩ := log_run hrun
    refine ⟨hremembers.busy, hremembers.notice, huses, fun x hx ↦ ⟨fun block hhear ↦ ?_, fun htake ↦ ?_,
      fun hawait ↦ ?_⟩⟩
    · exact not_consumes_of_hear (hhear ▸ hlog x hx)
    · exact take_eq (htake ▸ hlog x hx)
    · exact await_eq (hawait ▸ hlog x hx)

/-- A notice that the channel fell silent waits although the sound is back. -/
theorem notices_follow_transitions_stale :
    let c : Config.PowerMonitor := { window := 2 }
    let loud := [Int32.maxValue, Int32.maxValue]
    ¬65536 ∣ c.window.toNat ∧ ∃ log m,
      (ofConfig c).run [.hear loud, .hear [0, 0, 0], .hear [0], .hear [], .hear loud] = .ok (log, m) ∧
        m.channel.busy = true ∧ Since Moment.Falls Moment.Consumes log := by
  intro c loud
  have hwindow : ¬65536 ∣ c.window.toNat := by decide
  obtain ⟨hruns, hfollows⟩ := notices_follow_transitions c
    [.hear loud, .hear [0, 0, 0], .hear [0], .hear [], .hear loud]
  obtain ⟨⟨log, m⟩, hrun⟩ := hruns hwindow
  have hchannel : ((ofConfig c).run [.hear loud, .hear [0, 0, 0], .hear [0], .hear [], .hear loud]).map
      (fun r ↦ (r.2.channel.busy, r.2.channel.freed.pending)) = .ok (true, some ()) := by decide +kernel
  rw [hrun] at hchannel
  obtain ⟨hbusy, hnotice⟩ := Prod.mk.inj (Except.ok.inj hchannel)
  refine ⟨hwindow, log, m, hrun, hbusy, (hfollows log m hrun).2.1.1 ?_⟩
  rw [hnotice]
  rfl

end PowerMonitor

end SoundLink
