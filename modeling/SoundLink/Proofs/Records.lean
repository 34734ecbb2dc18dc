import SoundLink.Config.Reader
import SoundLink.Proofs.Unicode

namespace SoundLink

abbrev Members := List (Points × Json)

namespace Members

variable {name name' : String} {ms : Members}

def named (name : String) (ms : Members) : Members := ms.filter fun m ↦ m.1 = Points.ofString name

def others (name : String) (ms : Members) : Members := ms.filter fun m ↦ !(m.1 = Points.ofString name)

theorem mem_named {m : Points × Json} : m ∈ ms.named name ↔ m ∈ ms ∧ m.1 = Points.ofString name := by
  rw [named, List.mem_filter, decide_eq_true_eq]

theorem named_cases (name : String) (ms : Members) :
    ms.named name = [] ∨ (∃ j, ms.named name = [(Points.ofString name, j)]) ∨
      ∃ j k more, ms.named name = (Points.ofString name, j) :: (Points.ofString name, k) :: more := by
  have hkey : ∀ m ∈ ms.named name, m.1 = Points.ofString name := fun m hm ↦ (mem_named.1 hm).2
  generalize ms.named name = found at hkey ⊢
  cases found with
  | nil => exact .inl rfl
  | cons m found =>
    obtain ⟨key, j⟩ := m
    rw [List.forall_mem_cons] at hkey
    obtain ⟨rfl : key = _, hkey⟩ := hkey
    cases found with
    | nil => exact .inr (.inl ⟨j, rfl⟩)
    | cons m' more =>
      obtain ⟨key', k⟩ := m'
      obtain rfl : key' = _ := hkey _ List.mem_cons_self
      exact .inr (.inr ⟨j, k, more, rfl⟩)

theorem perm_named (name : String) (ms : Members) : ms.Perm (ms.named name ++ ms.others name) :=
  (List.filter_append_perm _ ms).symm

theorem named_others_self : (ms.others name).named name = [] := by
  simp [named, others, List.filter_filter]

theorem named_others (h : name ≠ name') : (ms.others name).named name' = ms.named name' := by
  rw [named, others, List.filter_filter]
  refine List.filter_congr fun m _ ↦ ?_
  by_cases hm : m.1 = Points.ofString name' <;> simp [hm, Points.ofString_injective.eq_iff, h.symm]

def value? {β : Type} (name : String) (read : Json → Option β) (ms : Members) : Option β :=
  Config.member? name ms >>= read

def told {β : Type} (name : String) (read : Json → Option β) (ms : Members) (default : β) : β :=
  (ms.value? name read).getD default

/-- The members of a record that is the one member of a name. -/
def part (name : String) (ms : Members) : Members :=
  match Config.member? name ms with
  | some (.record inner) => inner
  | _ => []

theorem named_cons_ne {key : Points} {j : Json} (h : key ≠ Points.ofString name) :
    named name ((key, j) :: ms) = ms.named name := List.filter_cons_of_neg (by simpa using h)

theorem named_cons_self (j : Json) :
    named name ((Points.ofString name, j) :: ms) = (Points.ofString name, j) :: ms.named name :=
  List.filter_cons_of_pos (by simp)

end Members

/-- What may stand under one name of a record. -/
structure Entry where
  name : String
  admits : Json → Prop
  /-- Whether two values stand for the same. -/
  alike : Json → Json → Prop
  isDefault : Json → Prop
  /-- Whether a value gives a member of its own twice. -/
  repeats : Json → Prop

namespace Entry

variable {β : Type}

def leaf (name : String) (value : Json → Option β) (default : Option β) : Entry where
  name := name
  admits j := (value j).isSome = true
  alike j k := ∃ v, value j = some v ∧ value k = some v
  isDefault j := ∃ v, default = some v ∧ value j = some v
  repeats _ := False

end Entry

theorem Config.member?_eq (name : String) (ms : Members) : Config.member? name ms =
    match ms.named name with
    | [(_, j)] => some j
    | _ => none := rfl

variable (entries : List Entry)

structure Fits (ms : Members) : Prop where
  strings : ∀ m ∈ ms, m.1.toString?.isSome = true
  once : ∀ e ∈ entries, (ms.named e.name).length ≤ 1
  admits : ∀ e ∈ entries, ∀ m ∈ ms.named e.name, e.admits m.2

/-- Two lists of members that differ in what should not matter: in their order, in members of other
names with values in `idle`, in defaults that one of them spells out, in values that stand for the
same. -/
inductive Rewords (idle : Json → Prop) : Members → Members → Prop
  | perm {ms ms' : Members} (h : ms.Perm ms') : Rewords idle ms ms'
  | unknown {name : String} {j : Json} (h : ∀ e ∈ entries, e.name ≠ name) (hj : idle j) (ms : Members) :
    Rewords idle ms ((Points.ofString name, j) :: ms)
  | default {e : Entry} {j : Json} {ms : Members} (he : e ∈ entries) (h : ms.named e.name = [])
    (hj : e.isDefault j) : Rewords idle ms ((Points.ofString e.name, j) :: ms)
  | value {e : Entry} {j j' : Json} (he : e ∈ entries) (hj : e.alike j j') (ms : Members) :
    Rewords idle ((Points.ofString e.name, j) :: ms) ((Points.ofString e.name, j') :: ms)
  | symm {ms ms' : Members} (h : Rewords idle ms ms') : Rewords idle ms' ms
  | trans {ms₁ ms₂ ms₃ : Members} (h : Rewords idle ms₁ ms₂) (h' : Rewords idle ms₂ ms₃) : Rewords idle ms₁ ms₃

/-- Members that give an entry twice, at this level or further down. -/
def Repeats (ms : Members) : Prop :=
  ∃ e ∈ entries, 1 < (ms.named e.name).length ∨ ∃ m ∈ ms.named e.name, e.repeats m.2

def Entry.part (name : String) (entries : List Entry) : Entry where
  name := name
  admits j := ∃ ms, j = .record ms ∧ Fits entries ms
  alike j k := ∃ ms ms', j = .record ms ∧ k = .record ms' ∧ Rewords entries (fun _ ↦ True) ms ms'
  isDefault j := ∃ ms, j = .record ms ∧ Rewords entries (fun _ ↦ True) [] ms
  repeats j := ∃ ms, j = .record ms ∧ Repeats entries ms

namespace Members

variable {β : Type} {name : String} {read : Json → Option β} {ms ms' : Members}

theorem value?_congr (h : ms.named name = ms'.named name) : ms.value? name read = ms'.value? name read := by
  rw [value?, value?, Config.member?_eq, Config.member?_eq, h]

theorem value?_twice (h : 1 < (ms.named name).length) : ms.value? name read = none := by
  obtain hnil | ⟨j, hone⟩ | ⟨j, k, more, hmore⟩ := named_cases name ms
  · simp [hnil] at h
  · simp [hone] at h
  · rw [value?, Config.member?_eq, hmore]
    rfl

theorem value?_perm (h : ms.Perm ms') : ms.value? name read = ms'.value? name read := by
  have hnamed : (ms.named name).Perm (ms'.named name) := h.filter _
  obtain hnil | ⟨j, hone⟩ | ⟨j, k, more, hmore⟩ := named_cases name ms
  · rw [hnil] at hnamed
    exact value?_congr (hnil.trans hnamed.nil_eq)
  · rw [hone] at hnamed
    exact value?_congr (hone.trans (List.singleton_perm.1 hnamed))
  · have htwice : 1 < (ms.named name).length := by simp [hmore]
    rw [value?_twice htwice, value?_twice (hnamed.length_eq ▸ htwice)]

theorem value?_cons {j j' : Json} (h : read j = read j') : value? name read ((Points.ofString name, j) :: ms) =
    value? name read ((Points.ofString name, j') :: ms) := by
  rw [value?, value?, Config.member?_eq, Config.member?_eq, named_cons_self, named_cons_self]
  cases ms.named name with
  | nil => exact h
  | cons _ _ => rfl

end Members

theorem Rewords.value?_eq {β : Type} {name : String} {read : Json → Option β} {entries : List Entry}
    {idle : Json → Prop} {ms ms' : Members} (h : Rewords entries idle ms ms')
    (hnames : (entries.map Entry.name).Nodup) (hmem : .leaf name read none ∈ entries) :
    ms.value? name read = ms'.value? name read := by
  have hunique : ∀ e ∈ entries, e.name = name → e = .leaf name read none := fun e he hname ↦
    List.inj_on_of_nodup_map hnames he hmem hname
  induction h with
  | perm hperm => exact Members.value?_perm hperm
  | unknown hname _ ms =>
    exact Members.value?_congr (Members.named_cons_ne (Points.ofString_injective.ne (hname _ hmem).symm)).symm
  | default he _ hj =>
    refine Members.value?_congr (Members.named_cons_ne (Points.ofString_injective.ne fun hname ↦ ?_)).symm
    rw [hunique _ he hname] at hj
    obtain ⟨_, hnone, _⟩ := hj
    cases hnone
  | @value e j j' he hj ms =>
    by_cases hname : e.name = name
    · obtain rfl := hunique _ he hname
      obtain ⟨v, hv, hv'⟩ := hj
      exact Members.value?_cons (hv.trans hv'.symm)
    · have hne := Points.ofString_injective.ne hname
      exact Members.value?_congr ((Members.named_cons_ne hne).trans (Members.named_cons_ne hne).symm)
  | symm _ ih => exact ih.symm
  | trans _ _ ih ih' => exact ih.trans ih'

namespace Field

variable {α β γ : Type}

structure Apart (f g : Field α) : Prop where
  name : f.name ≠ g.name
  comm : ∀ j k a, (f.store j a >>= g.store k) = (g.store k a >>= f.store j)

theorem Apart.symm {f g : Field α} (h : Apart f g) : Apart g f where
  name := h.name.symm
  comm j k a := (h.comm k j a).symm

instance : Std.Symm (@Apart α) := ⟨fun _ _ h ↦ h.symm⟩

variable {name name' : String}

theorem apart_of_of {value : Json → Option β} {value' : Json → Option γ} {set : β → α → α} {set' : γ → α → α}
    (hname : name ≠ name') (hset : ∀ x y a, set' y (set x a) = set x (set' y a)) :
    Apart (.of name value set) (.of name' value' set') where
  name := hname
  comm j k a := by
    simp only [of, Option.bind_eq_bind]
    cases value j <;> cases value' k <;> simp [hset]

theorem apart_nested_of {fields : List (Field β)} {get : α → β} {value : Json → Option γ} {set : β → α → α}
    {set' : γ → α → α} (hname : name ≠ name') (hget : ∀ y a, get (set' y a) = get a)
    (hset : ∀ x y a, set' y (set x a) = set x (set' y a)) :
    Apart (.nested name fields get set) (.of name' value set') where
  name := hname
  comm j k a := by
    simp only [nested, of, Option.bind_eq_bind]
    cases hj : read fields (get a) j <;> cases value k <;> simp [hget, hset, hj]

theorem apart_nested_nested {fields : List (Field β)} {fields' : List (Field γ)} {get : α → β} {get' : α → γ}
    {set : β → α → α} {set' : γ → α → α} (hname : name ≠ name') (hget : ∀ y a, get (set' y a) = get a)
    (hget' : ∀ x a, get' (set x a) = get' a) (hset : ∀ x y a, set' y (set x a) = set x (set' y a)) :
    Apart (.nested name fields get set) (.nested name' fields' get' set') where
  name := hname
  comm j k a := by
    simp only [nested, Option.bind_eq_bind]
    cases hj : read fields (get a) j <;> cases hk : read fields' (get' a) k <;> simp [hget, hget', hset, hj, hk]

variable {fields : List (Field α)}

theorem storeMembers_unknown {name : String} {seen : List String} {j : Json} {ms : Members} {a : α}
    (h : ∀ f ∈ fields, f.name ≠ name) :
    storeMembers fields seen ((Points.ofString name, j) :: ms) a = storeMembers fields seen ms a := by
  have hfind : fields.find? (fun f ↦ f.name = name) = none := List.find?_eq_none.2 (by simpa using h)
  rw [storeMembers, Points.toString?_ofString, Option.bind_eq_bind, Option.bind_some, hfind]

theorem find?_eq_some (hapart : fields.Pairwise Apart) {f : Field α} (hf : f ∈ fields) :
    fields.find? (fun g ↦ g.name = f.name) = some f := by
  induction hapart with
  | nil => cases hf
  | @cons g fields hg _ ih =>
    obtain rfl | hf := List.mem_cons.1 hf
    · simp
    · rw [List.find?_cons_of_neg (by simpa using (hg f hf).name)]
      exact ih hf

theorem storeMembers_known (hapart : fields.Pairwise Apart) {f : Field α} (hf : f ∈ fields)
    {seen : List String} {j : Json} {ms : Members} {a : α} :
    storeMembers fields seen ((Points.ofString f.name, j) :: ms) a =
      if f.name ∈ seen then none else f.store j a >>= storeMembers fields (f.name :: seen) ms := by
  rw [storeMembers, Points.toString?_ofString, Option.bind_eq_bind, Option.bind_some, find?_eq_some hapart hf]

theorem storeMembers_seen {seen seen' : List String} (h : ∀ name, name ∈ seen ↔ name ∈ seen') (ms : Members)
    (a : α) : storeMembers fields seen ms a = storeMembers fields seen' ms a := by
  induction ms generalizing seen seen' a with
  | nil => rfl
  | cons m ms ih =>
    obtain ⟨key, j⟩ := m
    rw [storeMembers, storeMembers]
    refine congrArg _ (funext fun name ↦ ?_)
    cases fields.find? (fun f ↦ f.name = name) with
    | none => exact ih h a
    | some f =>
      simp only [h name]
      split_ifs
      · rfl
      · exact congrArg _ (funext fun b ↦ ih (fun n ↦ by simp [h n]) b)

variable (fields) in
theorem member_cases (m : Points × Json) :
    (∀ seen ms a, storeMembers fields seen (m :: ms) a = none) ∨
    (∀ seen ms a, storeMembers fields seen (m :: ms) a = storeMembers fields seen ms a) ∨
    ∃ f ∈ fields, m.1 = Points.ofString f.name := by
  obtain ⟨key, j⟩ := m
  cases hkey : key.toString? with
  | none =>
    refine .inl fun seen ms a ↦ ?_
    rw [storeMembers, hkey]
    rfl
  | some name =>
    obtain rfl := Points.toString?_eq_some.1 hkey
    by_cases hknown : ∃ f ∈ fields, f.name = name
    · obtain ⟨f, hf, rfl⟩ := hknown
      exact .inr (.inr ⟨f, hf, rfl⟩)
    · exact .inr (.inl fun seen ms a ↦ storeMembers_unknown fun f hf hname ↦ hknown ⟨f, hf, hname⟩)

theorem storeMembers_cons_congr {ms ms' : Members}
    (h : ∀ seen a, storeMembers fields seen ms a = storeMembers fields seen ms' a) (m : Points × Json)
    (seen : List String) (a : α) :
    storeMembers fields seen (m :: ms) a = storeMembers fields seen (m :: ms') a := by
  obtain ⟨key, j⟩ := m
  rw [storeMembers, storeMembers]
  refine congrArg _ (funext fun name ↦ ?_)
  cases fields.find? (fun f ↦ f.name = name) with
  | none => exact h seen a
  | some f => exact if_congr Iff.rfl rfl (congrArg _ (funext fun b ↦ h _ b))

theorem storeMembers_cons_none {ms : Members} (h : ∀ seen a, storeMembers fields seen ms a = none)
    (m : Points × Json) (seen : List String) (a : α) : storeMembers fields seen (m :: ms) a = none := by
  obtain ⟨key, j⟩ := m
  rw [storeMembers, Option.bind_eq_bind, Option.bind_eq_none_iff]
  intro name _
  cases fields.find? (fun f ↦ f.name = name) with
  | none => exact h seen a
  | some f =>
    dsimp only
    split_ifs
    · rfl
    · exact Option.bind_eq_none_iff.2 fun b _ ↦ h _ b

theorem storeMembers_known_known (hapart : fields.Pairwise Apart) {f g : Field α} (hf : f ∈ fields)
    (hg : g ∈ fields) (seen : List String) (j k : Json) (ms : Members) (a : α) :
    storeMembers fields seen ((Points.ofString f.name, j) :: (Points.ofString g.name, k) :: ms) a =
      if f.name ∈ seen ∨ g.name ∈ f.name :: seen then none
      else (f.store j a >>= g.store k) >>= storeMembers fields (g.name :: f.name :: seen) ms := by
  rw [storeMembers_known hapart hf]
  by_cases hfs : f.name ∈ seen
  · rw [if_pos hfs, if_pos (.inl hfs)]
  rw [if_neg hfs]
  by_cases hgs : g.name ∈ f.name :: seen
  · rw [if_pos (.inr hgs), Option.bind_eq_bind, Option.bind_eq_none_iff]
    exact fun b _ ↦ (storeMembers_known hapart hg).trans (if_pos hgs)
  · rw [if_neg (not_or.2 ⟨hfs, hgs⟩), bind_assoc]
    exact congrArg _ (funext fun b ↦ (storeMembers_known hapart hg).trans (if_neg hgs))

theorem storeMembers_swap_known (hapart : fields.Pairwise Apart) {f g : Field α} (hf : f ∈ fields)
    (hg : g ∈ fields) (seen : List String) (j k : Json) (ms : Members) (a : α) :
    storeMembers fields seen ((Points.ofString f.name, j) :: (Points.ofString g.name, k) :: ms) a =
      storeMembers fields seen ((Points.ofString g.name, k) :: (Points.ofString f.name, j) :: ms) a := by
  rw [storeMembers_known_known hapart hf hg, storeMembers_known_known hapart hg hf]
  by_cases hfg : f = g
  · subst hfg
    rw [if_pos (.inr List.mem_cons_self), if_pos (.inr List.mem_cons_self)]
  rw [(hapart.forall hf hg hfg).comm j k a]
  refine if_congr ?_ rfl (congrArg _ (funext (storeMembers_seen (fun n ↦ ?_) ms)))
  · simp only [List.mem_cons, eq_comm (a := g.name)]
    tauto
  · simp only [List.mem_cons]
    tauto

theorem storeMembers_swap (hapart : fields.Pairwise Apart) (seen : List String) (m m' : Points × Json)
    (ms : Members) (a : α) :
    storeMembers fields seen (m :: m' :: ms) a = storeMembers fields seen (m' :: m :: ms) a := by
  obtain ⟨key, j⟩ := m
  obtain ⟨key', k⟩ := m'
  obtain h | h | ⟨f, hf, rfl⟩ := member_cases fields (key, j)
  · rw [h, storeMembers_cons_none fun seen a ↦ h seen ms a]
  · rw [h]
    exact (storeMembers_cons_congr (fun seen a ↦ h seen ms a) _ seen a).symm
  obtain h | h | ⟨g, hg, rfl⟩ := member_cases fields (key', k)
  · rw [h, storeMembers_cons_none fun seen a ↦ h seen ms a]
  · rw [h]
    exact storeMembers_cons_congr (fun seen a ↦ h seen ms a) _ seen a
  exact storeMembers_swap_known hapart hf hg seen j k ms a

theorem storeMembers_perm (hapart : fields.Pairwise Apart) {ms ms' : Members} (h : ms.Perm ms')
    (seen : List String) (a : α) : storeMembers fields seen ms a = storeMembers fields seen ms' a := by
  induction h generalizing seen a with
  | nil => rfl
  | cons m _ ih => exact storeMembers_cons_congr ih m seen a
  | swap m m' ms => exact storeMembers_swap hapart seen m' m ms a
  | trans _ _ ih ih' => exact (ih seen a).trans (ih' seen a)

/-- A field that no member names may count as stored. -/
theorem storeMembers_absent {name : String} {seen : List String} {ms : Members} (h : ms.named name = [])
    (a : α) : storeMembers fields (name :: seen) ms a = storeMembers fields seen ms a := by
  induction ms generalizing seen a with
  | nil => rfl
  | cons m ms ih =>
    obtain ⟨key, j⟩ := m
    rw [storeMembers, storeMembers]
    cases hkey : key.toString? with
    | none => rfl
    | some n =>
      obtain rfl := Points.toString?_eq_some.1 hkey
      have hn : n ≠ name := by
        rintro rfl
        rw [Members.named_cons_self] at h
        cases h
      rw [Members.named_cons_ne (Points.ofString_injective.ne hn)] at h
      rw [Option.bind_eq_bind, Option.bind_some, Option.bind_some]
      cases fields.find? (fun f ↦ f.name = n) with
      | none => exact ih h a
      | some f =>
        refine if_congr (by simp [hn]) rfl (congrArg _ (funext fun b ↦ ?_))
        refine (storeMembers_seen (fun n' ↦ ?_) ms b).trans (ih h b)
        simp only [List.mem_cons]
        tauto

/-- Whether a field, stored into `d`, treats values as an entry says. -/
structure Meets (d : α) (f : Field α) (e : Entry) : Prop where
  name : f.name = e.name
  alike : ∀ {j k}, e.alike j k → f.store j d = f.store k d
  isDefault : ∀ {j}, e.isDefault j → f.store j d = some d
  repeats : ∀ {j}, e.repeats j → f.store j d = none

theorem exists_of_forall₂ {R : α → β → Prop} {as : List α} {bs : List β} (h : List.Forall₂ R as bs) {b : β}
    (hb : b ∈ bs) : ∃ a ∈ as, R a b := by
  induction h with
  | nil => cases hb
  | cons hab _ ih =>
    obtain rfl | hb := List.mem_cons.1 hb
    · exact ⟨_, List.mem_cons_self, hab⟩
    · obtain ⟨a, ha, hr⟩ := ih hb
      exact ⟨a, List.mem_cons_of_mem _ ha, hr⟩

structure Lawful (d : α) (fields : List (Field α)) (entries : List Entry) : Prop where
  apart : fields.Pairwise Apart
  meets : List.Forall₂ (Meets d) fields entries

namespace Lawful

variable {d : α} {entries : List Entry} {ms ms' : Members}

theorem exists_field (h : Lawful d fields entries) {e : Entry} (he : e ∈ entries) :
    ∃ f ∈ fields, Meets d f e := exists_of_forall₂ h.meets he

theorem exists_entry (h : Lawful d fields entries) {f : Field α} (hf : f ∈ fields) :
    ∃ e ∈ entries, Meets d f e := exists_of_forall₂ h.meets.flip hf

theorem storeMembers_rewords (h : Lawful d fields entries) {idle : Json → Prop}
    (hms : Rewords entries idle ms ms') : storeMembers fields [] ms d = storeMembers fields [] ms' d := by
  induction hms with
  | perm hperm => exact storeMembers_perm h.apart hperm [] d
  | unknown hname _ ms =>
    refine (storeMembers_unknown fun f hf ↦ ?_).symm
    obtain ⟨e, he, hmeets⟩ := h.exists_entry hf
    exact hmeets.name ▸ hname e he
  | default he habsent hj =>
    obtain ⟨f, hf, hmeets⟩ := h.exists_field he
    rw [← hmeets.name] at habsent ⊢
    rw [storeMembers_known h.apart hf, if_neg List.not_mem_nil, hmeets.isDefault hj, Option.bind_eq_bind,
      Option.bind_some, storeMembers_absent habsent]
  | value he hj ms =>
    obtain ⟨f, hf, hmeets⟩ := h.exists_field he
    rw [← hmeets.name, storeMembers_known h.apart hf, storeMembers_known h.apart hf, hmeets.alike hj]
  | symm _ ih => exact ih.symm
  | trans _ _ ih ih' => exact ih.trans ih'

theorem storeMembers_repeats (h : Lawful d fields entries) (hms : Repeats entries ms) :
    storeMembers fields [] ms d = none := by
  obtain ⟨e, he, htwice | ⟨m, hm, hj⟩⟩ := hms
  · obtain ⟨f, hf, hmeets⟩ := h.exists_field he
    obtain hnil | ⟨j, hone⟩ | ⟨j, k, more, hmore⟩ := ms.named_cases e.name
    · simp [hnil] at htwice
    · simp [hone] at htwice
    · rw [storeMembers_perm h.apart (Members.perm_named e.name ms), hmore, ← hmeets.name]
      exact (storeMembers_known_known h.apart hf hf [] j k _ d).trans (if_pos (.inr List.mem_cons_self))
  · obtain ⟨f, hf, hmeets⟩ := h.exists_field he
    obtain ⟨key, j⟩ := m
    obtain ⟨hm, rfl⟩ := Members.mem_named.1 hm
    obtain ⟨before, behind, rfl⟩ := List.append_of_mem hm
    rw [storeMembers_perm h.apart List.perm_middle, ← hmeets.name, storeMembers_known h.apart hf,
      if_neg List.not_mem_nil, hmeets.repeats hj]
    rfl

end Lawful

def storeNamed (ms : Members) (a : α) (f : Field α) : Option α :=
  match Config.member? f.name ms with
  | none => some a
  | some j => f.store j a

theorem storeNamed_nil {ms : Members} {f : Field α} (h : ms.named f.name = []) (a : α) :
    storeNamed ms a f = some a := by
  rw [storeNamed, Config.member?_eq, h]

theorem storeNamed_singleton {ms : Members} {f : Field α} {m : Points × Json} (h : ms.named f.name = [m])
    (a : α) : storeNamed ms a f = f.store m.2 a := by
  rw [storeNamed, Config.member?_eq, h]

theorem foldlM_storeNamed_congr {ms ms' : Members} (h : ∀ f ∈ fields, ms.named f.name = ms'.named f.name)
    (a : α) : fields.foldlM (storeNamed ms) a = fields.foldlM (storeNamed ms') a := by
  induction fields generalizing a with
  | nil => rfl
  | cons f fields ih =>
    rw [List.forall_mem_cons] at h
    have hf : storeNamed ms a f = storeNamed ms' a f := by
      rw [storeNamed, storeNamed, Config.member?_eq, Config.member?_eq, h.1]
    rw [List.foldlM_cons, List.foldlM_cons, hf]
    exact congrArg _ (funext fun b ↦ ih h.2 b)

theorem storeMembers_idle {seen : List String} {ms : Members} (hstrings : ∀ m ∈ ms, m.1.toString?.isSome = true)
    (hidle : ∀ f ∈ fields, ms.named f.name = []) (a : α) : storeMembers fields seen ms a = some a := by
  induction ms with
  | nil => rfl
  | cons m ms ih =>
    obtain ⟨key, j⟩ := m
    rw [List.forall_mem_cons] at hstrings
    obtain ⟨n, hkey⟩ := Option.isSome_iff_exists.1 hstrings.1
    obtain rfl := Points.toString?_eq_some.1 hkey
    have hne : ∀ f ∈ fields, f.name ≠ n := by
      rintro f hf rfl
      have hnamed := hidle f hf
      rw [Members.named_cons_self] at hnamed
      cases hnamed
    rw [storeMembers_unknown hne]
    refine ih hstrings.2 fun f hf ↦ ?_
    rw [← Members.named_cons_ne (Points.ofString_injective.ne (hne f hf).symm)]
    exact hidle f hf

/-- Members that name only fields of `todo`, each at most once, are stored in the order of `todo`. -/
theorem storeMembers_eq_foldlM {todo : List (Field α)} (hapart : fields.Pairwise Apart)
    (hsub : todo.Sublist fields) {seen : List String} (hseen : ∀ f ∈ todo, f.name ∉ seen) {ms : Members}
    (hstrings : ∀ m ∈ ms, m.1.toString?.isSome = true) (honce : ∀ f ∈ todo, (ms.named f.name).length ≤ 1)
    (htodo : ∀ f ∈ fields, f ∉ todo → ms.named f.name = []) (a : α) :
    storeMembers fields seen ms a = todo.foldlM (storeNamed ms) a := by
  induction todo generalizing seen ms a with
  | nil => exact storeMembers_idle hstrings (fun f hf ↦ htodo f hf List.not_mem_nil) a
  | cons f todo ih =>
    have hf : f ∈ fields := hsub.subset List.mem_cons_self
    have hlater : ∀ g ∈ todo, f.name ≠ g.name := fun g hg ↦
      ((List.pairwise_cons.1 (hapart.sublist hsub)).1 g hg).name
    have hsub' : todo.Sublist fields := (List.sublist_cons_self f todo).trans hsub
    rw [List.forall_mem_cons] at hseen honce
    rw [List.foldlM_cons]
    obtain hnil | ⟨j, hone⟩ | ⟨_, _, _, hmore⟩ := ms.named_cases f.name
    · rw [storeNamed_nil hnil, Option.bind_eq_bind, Option.bind_some]
      refine ih hsub' hseen.2 hstrings honce.2 (fun g hg hnot ↦ ?_) a
      by_cases hgf : g = f
      · exact hgf ▸ hnil
      · exact htodo g hg (by simp [hgf, hnot])
    · rw [storeNamed_singleton hone, storeMembers_perm hapart (Members.perm_named f.name ms), hone,
        List.singleton_append]
      refine ((storeMembers_known hapart hf).trans (if_neg hseen.1)).trans (congrArg _ (funext fun b ↦ ?_))
      rw [foldlM_storeNamed_congr fun g hg ↦ (Members.named_others (hlater g hg)).symm]
      refine ih hsub' (fun g hg ↦ ?_) (fun m hm ↦ ?_) (fun g hg ↦ ?_) (fun g hg hnot ↦ ?_) b
      · rw [List.mem_cons, not_or]
        exact ⟨(hlater g hg).symm, hseen.2 g hg⟩
      · exact hstrings m (List.mem_of_mem_filter hm)
      · rw [Members.named_others (hlater g hg)]
        exact honce.2 g hg
      · by_cases hgf : g = f
        · exact hgf ▸ Members.named_others_self
        · rw [Members.named_others (hapart.forall hf hg (Ne.symm hgf)).name]
          exact htodo g hg (by simp [hgf, hnot])
    · simp [hmore] at honce

theorem Lawful.read_record {d : α} {entries : List Entry} {ms : Members} (h : Lawful d fields entries)
    (hms : Fits entries ms) : read fields d (.record ms) = fields.foldlM (storeNamed ms) d := by
  refine storeMembers_eq_foldlM h.apart (List.Sublist.refl _) (fun f _ ↦ List.not_mem_nil) hms.strings
    (fun f hf ↦ ?_) (fun f hf hnot ↦ absurd hf hnot) d
  obtain ⟨e, he, hmeets⟩ := h.exists_entry hf
  rw [hmeets.name]
  exact hms.once e he

section Kinds

variable {name : String} {entries : List Entry} {ms : Members} {d a : α} {get : α → β} {set : β → α → α}
  {value : Json → Option β}

theorem meets_of {default : β} (hset : set default d = d) :
    Meets d (.of name value set) (.leaf name value (some default)) where
  name := rfl
  alike := by
    rintro j k ⟨v, hj, hk⟩
    simp only [of, hj, hk]
  isDefault := by
    rintro j ⟨v, ⟨⟩, hj⟩
    simp only [of, hj, Option.map_some, hset]
  repeats := False.elim

theorem meets_nested {fields : List (Field β)} (h : Lawful (get d) fields entries) (hset : set (get d) d = d) :
    Meets d (.nested name fields get set) (.part name entries) where
  name := rfl
  alike := by
    rintro _ _ ⟨ms, ms', rfl, rfl, hms⟩
    simp only [nested, read, h.storeMembers_rewords hms]
  isDefault := by
    rintro _ ⟨ms, rfl, hms⟩
    simp only [nested, read, ← h.storeMembers_rewords hms, storeMembers, Option.map_some, hset]
  repeats := by
    rintro _ ⟨ms, rfl, hms⟩
    simp only [nested, read, h.storeMembers_repeats hms, Option.map_none]

theorem member?_cases (hms : Fits entries ms) {e : Entry} (he : e ∈ entries) :
    Config.member? e.name ms = none ∨ ∃ j, Config.member? e.name ms = some j ∧ e.admits j := by
  have honce := hms.once e he
  obtain hnil | ⟨j, hone⟩ | ⟨_, _, _, hmore⟩ := ms.named_cases e.name
  · exact .inl (by rw [Config.member?_eq, hnil])
  · exact .inr ⟨j, by rw [Config.member?_eq, hone], hms.admits e he (_, j) (hone ▸ List.mem_cons_self)⟩
  · simp [hmore] at honce

theorem foldlM_cons_of {f : Field α} {e : Entry} {fields : List (Field α)} {b : α} {r : Option α}
    (hms : Fits (e :: entries) ms) (hstore : storeNamed ms a f = some b)
    (hrest : Fits entries ms → fields.foldlM (storeNamed ms) b = r) :
    (f :: fields).foldlM (storeNamed ms) a = r := by
  rw [List.foldlM_cons, hstore, Option.bind_eq_bind, Option.bind_some]
  exact hrest ⟨hms.strings, fun e he ↦ hms.once e (List.mem_cons_of_mem _ he),
    fun e he ↦ hms.admits e (List.mem_cons_of_mem _ he)⟩

theorem storeNamed_of (get : α → β) {default : Option β} (hms : Fits (.leaf name value default :: entries) ms)
    (hset : set (get a) a = a) :
    storeNamed ms a (.of name value set) = some (set (ms.told name value (get a)) a) := by
  obtain hnone | ⟨j, hsome, hj⟩ := member?_cases hms List.mem_cons_self
  · simp only [storeNamed, of, Members.told, Members.value?]
    rw [show Config.member? name ms = none from hnone]
    simp [hset]
  · obtain ⟨v, hv⟩ := Option.isSome_iff_exists.1 hj
    simp only [storeNamed, of, Members.told, Members.value?]
    rw [show Config.member? name ms = some j from hsome]
    simp [hv]

theorem fits_nil (entries : List Entry) : Fits entries [] where
  strings := by simp
  once := by simp [Members.named]
  admits := by simp [Members.named]

theorem storeNamed_nested {fields : List (Field β)} {inner : List Entry} {overlaid : Members → β}
    (hms : Fits (.part name inner :: entries) ms) (hset : set (get a) a = a)
    (hread : ∀ ms, Fits inner ms → read fields (get a) (.record ms) = some (overlaid ms)) :
    storeNamed ms a (.nested name fields get set) = some (set (overlaid (ms.part name)) a) := by
  obtain hnone | ⟨j, hsome, ms', rfl, hfits⟩ := member?_cases hms List.mem_cons_self
  · have hempty : overlaid [] = get a := (Option.some.inj (hread [] (fits_nil inner))).symm
    simp only [storeNamed, nested, Members.part]
    rw [show Config.member? name ms = none from hnone]
    simp [hempty, hset]
  · simp only [storeNamed, nested, Members.part]
    rw [show Config.member? name ms = some (.record ms') from hsome]
    simp [hread ms' hfits]

end Kinds

end Field

end SoundLink
