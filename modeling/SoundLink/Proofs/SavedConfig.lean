import SoundLink.Command.Memory
import SoundLink.Proofs.JsonRoundTrip
import SoundLink.Proofs.Overrides

namespace SoundLink

namespace Json

theorem natural?_natural {n limit : ℕ} (hn : n < limit) (hlimit : limit ≤ 2 ^ 64) :
    (Config.natural n).natural? limit = some n := by
  rw [Config.natural, natural?, Numeral.natural?_ofNat (hn.trans_le hlimit),
    Option.filter_some_pos (by simpa using hn)]

theorem uint8?_natural (n : UInt8) : (Config.natural n.toNat).uint8? = some n := by
  rw [uint8?, natural?_natural n.toNat_lt (by decide), Option.map_some, UInt8.ofNat_toNat]

theorem uint32?_natural (n : UInt32) : (Config.natural n.toNat).uint32? = some n := by
  rw [uint32?, natural?_natural n.toNat_lt (by decide), Option.map_some, UInt32.ofNat_toNat]

theorem uint64?_natural (n : UInt64) : (Config.natural n.toNat).uint64? = some n := by
  rw [uint64?, natural?_natural n.toNat_lt (by decide), Option.map_some, UInt64.ofNat_toNat]

theorem string?_string (s : String) : (Json.string s).string? = some s := Points.toString?_ofString s

theorem proper_natural (n : ℕ) : (Config.natural n).Proper := by
  rw [Config.natural, Proper]
  exact Numeral.proper_ofNat n

theorem proper_string (s : String) : (Json.string s).Proper := by
  rw [Json.string, Proper]
  exact ⟨s, rfl⟩

theorem proper_bool (b : Bool) : (Json.bool b).Proper := by
  rw [Proper]
  exact trivial

theorem proper_object {members : List (String × Json)} (h : ∀ m ∈ members, m.2.Proper) :
    (object members).Proper := by
  rw [object, Proper]
  induction members with
  | nil => trivial
  | cons m members ih =>
    rw [List.forall_mem_cons] at h
    rw [List.map_cons, ProperMembers]
    exact ⟨⟨m.1, rfl⟩, h.1, ih h.2⟩

end Json

namespace Field

variable {α : Type} {fields todo : List (Field α)}

def members : List (Field α) → List Json → List (String × Json)
  | f :: fields, j :: values => (f.name, j) :: members fields values
  | _, _ => []

theorem storeMembers_members {seen : List String} {values : List Json} (a : α)
    (hapart : fields.Pairwise Apart) (hsub : todo.Sublist fields) (hseen : ∀ f ∈ todo, f.name ∉ seen)
    (hlength : values.length ≤ todo.length) :
    storeMembers fields seen ((members todo values).map fun m ↦ (Points.ofString m.1, m.2)) a =
      storeItems todo values a := by
  induction todo generalizing seen values a with
  | nil =>
    obtain rfl := List.eq_nil_of_length_eq_zero (Nat.le_zero.1 hlength)
    rfl
  | cons f todo ih =>
    cases values with
    | nil => rfl
    | cons j values =>
      have hlater := (List.pairwise_cons.1 (hapart.sublist hsub)).1
      rw [List.forall_mem_cons] at hseen
      rw [members, List.map_cons, storeMembers_known hapart (hsub.subset List.mem_cons_self),
        if_neg hseen.1, storeItems]
      refine congrArg _ (funext fun a ↦ ih a ((List.sublist_cons_self f todo).trans hsub) (fun g hg ↦ ?_)
        (Nat.le_of_succ_le_succ hlength))
      rw [List.mem_cons, not_or]
      exact ⟨(hlater g hg).name.symm, hseen.2 g hg⟩

theorem read_members (values : List Json) (a : α) (hapart : fields.Pairwise Apart)
    (hlength : values.length ≤ fields.length) :
    read fields a (.object (members fields values)) = storeItems fields values a :=
  storeMembers_members a hapart (List.Sublist.refl _) (fun _ _ ↦ List.not_mem_nil) hlength

end Field

namespace Config

open SoundLink.Field Json

theorem Device.read_toJson (d base : Device) : read Device.fields base d.toJson = some d := by
  refine (read_members [_, _, _] base Device.lawful.apart le_rfl).trans ?_
  simp [storeItems, Device.fields, Field.of, string?_string, uint32?_natural, bool?]

structure Spelled (x : Binary) : Prop where
  proper : (real x).Proper
  binary? : (real x).binary? = some x

theorem Preamble.read_toJson {p : Preamble} (base : Preamble) (hamplitude : Spelled p.amplitude)
    (hthreshold : Spelled p.threshold) : read Preamble.fields base p.toJson = some p := by
  refine (read_members [_, _, _] base Preamble.lawful.apart le_rfl).trans ?_
  simp [storeItems, Preamble.fields, Field.of, uint64?_natural, hamplitude.binary?, hthreshold.binary?]

theorem Carrier.read_toJson {c : Carrier} (base : Carrier) (hamplitude : Spelled c.amplitude) :
    read Carrier.fields base c.toJson = some c := by
  refine (read_members [_, _, _] base Carrier.lawful.apart le_rfl).trans ?_
  simp [storeItems, Carrier.fields, Field.of, uint64?_natural, hamplitude.binary?]

theorem PowerMonitor.read_toJson {p : PowerMonitor} (base : PowerMonitor) (hthreshold : Spelled p.threshold) :
    read PowerMonitor.fields base p.toJson = some p := by
  refine (read_members [_, _] base PowerMonitor.lawful.apart le_rfl).trans ?_
  simp [storeItems, PowerMonitor.fields, Field.of, uint64?_natural, hthreshold.binary?]

structure Phy.Spelled (p : Phy) : Prop where
  preamble_amplitude : Config.Spelled p.preamble.amplitude
  preamble_threshold : Config.Spelled p.preamble.threshold
  carrier_amplitude : Config.Spelled p.carrier.amplitude
  monitor_threshold : Config.Spelled p.powerMonitor.threshold

theorem Phy.read_toJson {p : Phy} (base : Phy) (h : p.Spelled) : read Phy.fields base p.toJson = some p := by
  refine (read_members [_, _, _, _, _, _, _, _, _] base Phy.lawful.apart le_rfl).trans ?_
  simp [storeItems, Phy.fields, Field.of, Field.nested, uint64?_natural, uint8?_natural,
    Preamble.read_toJson _ h.preamble_amplitude h.preamble_threshold,
    Carrier.read_toJson _ h.carrier_amplitude, PowerMonitor.read_toJson _ h.monitor_threshold]

theorem Backoff.ofJson?_toJson (b : Backoff) : Backoff.ofJson? b.toJson = some b := by
  have hkind : ∀ s : String, Idle (.string s) := fun s ↦ idle_of_string? (string?_string s)
  have hdelay : ∀ n : UInt64, Idle (natural n.toNat) := fun n ↦ idle_of_uint64? (uint64?_natural n)
  cases b with
  | random lo hi =>
    refine (ofJson?_of_sound ?_).trans ?_
    · simp [Sound, isSome_ofString, hkind, hdelay]
    · simp [ofMembers?, member?, Points.ofString_injective.eq_iff, string?_string, uint64?_natural]
  | fixed delay =>
    refine (ofJson?_of_sound ?_).trans ?_
    · simp [Sound, isSome_ofString, hkind, hdelay]
    · simp [ofMembers?, member?, Points.ofString_injective.eq_iff, string?_string, uint64?_natural]

theorem Mac.read_toJson (m base : Mac) : read Mac.fields base m.toJson = some m := by
  refine (read_members [_, _, _, _, _, _] base Mac.lawful.apart le_rfl).trans ?_
  simp [storeItems, Mac.fields, Field.of, uint64?_natural, uint32?_natural, uint8?_natural,
    Backoff.ofJson?_toJson]

theorem read_toJson {c : Config} (base : Config) (h : c.phy.Spelled) :
    read Config.fields base c.toJson = some c := by
  refine (read_members [_, _, _] base lawful.apart le_rfl).trans ?_
  simp [storeItems, Config.fields, Field.nested, Device.read_toJson, Phy.read_toJson _ h, Mac.read_toJson]

theorem Device.proper_toJson (d : Device) : d.toJson.Proper :=
  proper_object (by simp [proper_string, proper_natural, proper_bool])

theorem Phy.proper_toJson {p : Phy} (h : p.Spelled) : p.toJson.Proper := by
  have hpreamble : p.preamble.toJson.Proper := proper_object
    (by simp [proper_natural, h.preamble_amplitude.proper, h.preamble_threshold.proper])
  have hcarrier : p.carrier.toJson.Proper := proper_object
    (by simp [proper_natural, h.carrier_amplitude.proper])
  have hmonitor : p.powerMonitor.toJson.Proper := proper_object
    (by simp [proper_natural, h.monitor_threshold.proper])
  exact proper_object (by simp [proper_natural, hpreamble, hcarrier, hmonitor])

theorem Mac.proper_toJson (m : Mac) : m.toJson.Proper := by
  have hbackoff : m.backoff.toJson.Proper := by
    cases m.backoff <;> exact proper_object (by simp [proper_string, proper_natural])
  exact proper_object (by simp [proper_natural, hbackoff])

theorem proper_toJson {c : Config} (h : c.phy.Spelled) : c.toJson.Proper :=
  proper_object (by simp [Device.proper_toJson, Phy.proper_toJson h, Mac.proper_toJson])

structure DefaultLevels (c : Config) : Prop where
  preamble_amplitude : c.phy.preamble.amplitude = ({} : Preamble).amplitude
  preamble_threshold : c.phy.preamble.threshold = ({} : Preamble).threshold
  carrier_amplitude : c.phy.carrier.amplitude = ({} : Carrier).amplitude
  monitor_threshold : c.phy.powerMonitor.threshold = ({} : PowerMonitor).threshold

theorem spelled_of {x : Binary} (whole decimals : List Char) (hwhole : Numeral.IsDigits whole)
    (hhead : whole.head? = some '0' → whole.length ≤ 1) (hdecimals : Numeral.IsDigits decimals)
    (hspelling : Numeral.ofBinary? x = some ⟨false, whole, some decimals, none⟩)
    (hread : Numeral.toBinary? ⟨false, whole, some decimals, none⟩ = some x) : Spelled x where
  proper := by
    rw [real, hspelling, Proper]
    exact ⟨hwhole, hhead, fun ds hds ↦ Option.some.inj hds ▸ hdecimals, fun _ he ↦ nomatch he⟩
  binary? := by rw [real, hspelling, binary?, hread]

theorem DefaultLevels.spelled {c : Config} (h : c.DefaultLevels) : c.phy.Spelled := by
  have hfull : Spelled (level 1 1) := spelled_of ['1'] ['0'] ⟨by decide, by simp⟩ (by decide)
    ⟨by decide, by simp⟩ (by decide +kernel) (by decide +kernel)
  have htwenty : Spelled (level 20 1) := spelled_of ['2', '0'] ['0'] ⟨by decide, by simp⟩ (by decide)
    ⟨by decide, by simp⟩ (by decide +kernel) (by decide +kernel)
  have htwoFifths : Spelled (level 2 5) := spelled_of ['0'] ['4'] ⟨by decide, by simp⟩ (by decide)
    ⟨by decide, by simp⟩ (by decide +kernel) (by decide +kernel)
  exact ⟨h.preamble_amplitude ▸ hfull, h.preamble_threshold ▸ htwenty, h.carrier_amplitude ▸ hfull,
    h.monitor_threshold ▸ htwoFifths⟩

theorem load_of_parse? {text : String} {c : Config} (path : String) (hparse : parse? text = some c)
    (hvalid : c.check = .ok ()) : Config.load path (.ok (Utf8.encode text)) = .ok c := by
  rw [parse?] at hparse
  rw [load, Utf8.decode?_encode]
  dsimp only
  rw [hparse]
  dsimp only
  rw [hvalid]
  rfl

/-- What the program prints of a valid configuration loads back as that configuration, from a file of
any name that holds the text with any blanks before and behind it. -/
theorem load_printed {c : Config} (hvalid : c.check = .ok ()) (hlevels : c.DefaultLevels) :
    (∀ (a : Arguments) (s s' : Memory), a.command = .config →
      (Program.configuration Memory.host a).run.run s = (.ok c, s') →
      (Program.runCommand Memory.host a).run.run s =
        (.ok (), { s' with printed := c.toJson.write .indented :: s'.printed })) ∧
    ∀ (path : String) (before behind : List Char), (∀ b ∈ before, Token.isBlank b = true) →
      (∀ b ∈ behind, Token.isBlank b = true) →
      Config.load path (.ok (Utf8.encode
        (String.ofList before ++ c.toJson.write .indented ++ String.ofList behind))) = .ok c := by
  constructor
  · intro a s s' hcommand hrun
    have hbind : Program.runCommand Memory.host a =
        (Program.configuration Memory.host a >>= fun c ↦
          ExceptT.lift (Memory.host.print (c.toJson.write .indented))) := by
      rw [Program.runCommand, hcommand]
      rfl
    rw [hbind, ExceptT.run_bind, StateT.run_bind, hrun]
    rfl
  · intro path before behind hbefore hbehind
    apply load_of_parse? path _ hvalid
    rw [parse?, read?_write .indented (proper_toJson hlevels.spelled) hbefore hbehind, Option.bind_eq_bind,
      Option.bind_some]
    exact read_toJson {} hlevels.spelled

/-- A configuration with all that an escape can stand for in its name, and words at their bounds. -/
def awkward : Config where
  device := { clientName := "\"\\/\n\x01\x7f\u00e9\u2028" ++ "𝄞", sampleRate := 4294967295 }
  phy := { crcPolynomial := 255, frameInterval := 0, outputBuffer := 18446744073709551615 }
  mac := { address := 7, backoff := .fixed 18446744073709551615 }

theorem configuration_at {address : UInt8} (s : Memory)
    (hvalid : ({ mac := { address } } : Config).check = .ok ()) :
    (Program.configuration Memory.host ⟨none, some address, false, .config⟩).run.run s =
      (.ok { mac := { address } }, s) := by
  change ((Program.settle Invalid.message ({ mac := { address } } : Config).check >>= fun _ ↦
    pure { mac := { address } } : Program.Act (StateM Memory) Config)).run.run s = _
  rw [hvalid]
  rfl

theorem load_printed_awkward :
    (awkward.check = .ok () ∧ Config.load "saved.json" (.ok (Utf8.encode (String.ofList ['\t'] ++
      awkward.toJson.write .indented ++ String.ofList ['\n']))) = .ok awkward) ∧
    (Program.runCommand Memory.host ⟨none, some 7, false, .config⟩).run.run ⟨[], [], []⟩ =
      (.ok (), ⟨[], [({ mac := { address := 7 } } : Config).toJson.write .indented], []⟩) :=
  have hvalid : ({ mac := { address := 7 } } : Config).check = .ok () := by decide +kernel
  ⟨⟨by decide +kernel, (load_printed (c := awkward) (by decide +kernel) ⟨rfl, rfl, rfl, rfl⟩).2 _ _ _
    (List.forall_mem_singleton.2 rfl) (List.forall_mem_singleton.2 rfl)⟩,
    (load_printed hvalid ⟨rfl, rfl, rfl, rfl⟩).1 _ _ _ rfl (configuration_at _ hvalid)⟩

end Config

end SoundLink
