import SoundLink.Json.Reader
import SoundLink.Proofs.BackoffRecord

namespace SoundLink.Config

open SoundLink.Field Json

def Device.entries : List Entry :=
  [.leaf "client_name" string? (some ({} : Device).clientName),
    .leaf "sample_rate" uint32? (some ({} : Device).sampleRate),
    .leaf "connect_system_ports" bool? (some ({} : Device).connectSystemPorts)]

def Preamble.entries : List Entry :=
  [.leaf "n" uint64? (some ({} : Preamble).ramp),
    .leaf "amplitude" binary? (some ({} : Preamble).amplitude),
    .leaf "threshold" binary? (some ({} : Preamble).threshold)]

def Carrier.entries : List Entry :=
  [.leaf "amplitude" binary? (some ({} : Carrier).amplitude),
    .leaf "size" uint64? (some ({} : Carrier).size),
    .leaf "header_size" uint64? (some ({} : Carrier).headerSize)]

def PowerMonitor.entries : List Entry :=
  [.leaf "threshold" binary? (some ({} : PowerMonitor).threshold),
    .leaf "window" uint64? (some ({} : PowerMonitor).window)]

def Phy.entries : List Entry :=
  [.leaf "byte_per_frame" uint64? (some ({} : Phy).bytesPerFrame),
    .leaf "frame_interval" uint64? (some ({} : Phy).frameInterval),
    .leaf "crc_polynomial" uint8? (some ({} : Phy).crcPolynomial),
    .part "preamble" Preamble.entries,
    .part "carrier" Carrier.entries,
    .part "power_monitor" PowerMonitor.entries,
    .leaf "input_buffer_size" uint64? (some ({} : Phy).inputBuffer),
    .leaf "output_buffer_size" uint64? (some ({} : Phy).outputBuffer),
    .leaf "packet_buffer_size" uint64? (some ({} : Phy).packetBuffer)]

def Mac.entries : List Entry :=
  [.leaf "address" uint8? (some ({} : Mac).address),
    .leaf "byte_per_frame" uint64? (some ({} : Mac).bytesPerFrame),
    .leaf "ack_timeout_ms" uint64? (some ({} : Mac).ackTimeout),
    .leaf "max_retries" uint32? (some ({} : Mac).maxRetries),
    Backoff.entry ({} : Mac).backoff,
    .leaf "output_buffer_size" uint64? (some ({} : Mac).outputBuffer)]

def entries : List Entry :=
  [.part "device" Device.entries, .part "phy" Phy.entries, .part "mac" Mac.entries]

def Device.overlaid (ms : Members) : Device where
  clientName := ms.told "client_name" string? ({} : Device).clientName
  sampleRate := ms.told "sample_rate" uint32? ({} : Device).sampleRate
  connectSystemPorts := ms.told "connect_system_ports" bool? ({} : Device).connectSystemPorts

def Preamble.overlaid (ms : Members) : Preamble where
  ramp := ms.told "n" uint64? ({} : Preamble).ramp
  amplitude := ms.told "amplitude" binary? ({} : Preamble).amplitude
  threshold := ms.told "threshold" binary? ({} : Preamble).threshold

def Carrier.overlaid (ms : Members) : Carrier where
  amplitude := ms.told "amplitude" binary? ({} : Carrier).amplitude
  size := ms.told "size" uint64? ({} : Carrier).size
  headerSize := ms.told "header_size" uint64? ({} : Carrier).headerSize

def PowerMonitor.overlaid (ms : Members) : PowerMonitor where
  threshold := ms.told "threshold" binary? ({} : PowerMonitor).threshold
  window := ms.told "window" uint64? ({} : PowerMonitor).window

def Phy.overlaid (ms : Members) : Phy where
  bytesPerFrame := ms.told "byte_per_frame" uint64? ({} : Phy).bytesPerFrame
  frameInterval := ms.told "frame_interval" uint64? ({} : Phy).frameInterval
  crcPolynomial := ms.told "crc_polynomial" uint8? ({} : Phy).crcPolynomial
  preamble := Preamble.overlaid (ms.part "preamble")
  carrier := Carrier.overlaid (ms.part "carrier")
  powerMonitor := PowerMonitor.overlaid (ms.part "power_monitor")
  inputBuffer := ms.told "input_buffer_size" uint64? ({} : Phy).inputBuffer
  outputBuffer := ms.told "output_buffer_size" uint64? ({} : Phy).outputBuffer
  packetBuffer := ms.told "packet_buffer_size" uint64? ({} : Phy).packetBuffer

def Mac.overlaid (ms : Members) : Mac where
  address := ms.told "address" uint8? ({} : Mac).address
  bytesPerFrame := ms.told "byte_per_frame" uint64? ({} : Mac).bytesPerFrame
  ackTimeout := ms.told "ack_timeout_ms" uint64? ({} : Mac).ackTimeout
  maxRetries := ms.told "max_retries" uint32? ({} : Mac).maxRetries
  backoff := match member? "backoff" ms with
    | some (.record inner) => Backoff.overlaid inner
    | _ => ({} : Mac).backoff
  outputBuffer := ms.told "output_buffer_size" uint64? ({} : Mac).outputBuffer

def overlaid (ms : Members) : Config where
  device := Device.overlaid (ms.part "device")
  phy := Phy.overlaid (ms.part "phy")
  mac := Mac.overlaid (ms.part "mac")

theorem Device.lawful : Lawful {} Device.fields Device.entries where
  apart := by
    simp only [Device.fields, List.pairwise_cons, List.forall_mem_cons, List.not_mem_nil, false_implies,
      implies_true, List.Pairwise.nil, and_true]
    and_intros <;> exact apart_of_of (by decide) fun _ _ _ ↦ rfl
  meets := .cons (meets_of rfl) <| .cons (meets_of rfl) <| .cons (meets_of rfl) .nil

theorem Preamble.lawful : Lawful {} Preamble.fields Preamble.entries where
  apart := by
    simp only [Preamble.fields, List.pairwise_cons, List.forall_mem_cons, List.not_mem_nil, false_implies,
      implies_true, List.Pairwise.nil, and_true]
    and_intros <;> exact apart_of_of (by decide) fun _ _ _ ↦ rfl
  meets := .cons (meets_of rfl) <| .cons (meets_of rfl) <| .cons (meets_of rfl) .nil

theorem Carrier.lawful : Lawful {} Carrier.fields Carrier.entries where
  apart := by
    simp only [Carrier.fields, List.pairwise_cons, List.forall_mem_cons, List.not_mem_nil, false_implies,
      implies_true, List.Pairwise.nil, and_true]
    and_intros <;> exact apart_of_of (by decide) fun _ _ _ ↦ rfl
  meets := .cons (meets_of rfl) <| .cons (meets_of rfl) <| .cons (meets_of rfl) .nil

theorem PowerMonitor.lawful : Lawful {} PowerMonitor.fields PowerMonitor.entries where
  apart := by
    simp only [PowerMonitor.fields, List.pairwise_cons, List.forall_mem_cons, List.not_mem_nil, false_implies,
      implies_true, List.Pairwise.nil, and_true]
    exact apart_of_of (by decide) fun _ _ _ ↦ rfl
  meets := .cons (meets_of rfl) <| .cons (meets_of rfl) .nil

theorem Phy.lawful : Lawful {} Phy.fields Phy.entries where
  apart := by
    simp only [Phy.fields, List.pairwise_cons, List.forall_mem_cons, List.not_mem_nil, false_implies,
      implies_true, List.Pairwise.nil, and_true]
    and_intros
    all_goals first
      | exact apart_of_of (by decide) fun _ _ _ ↦ rfl
      | exact apart_nested_of (by decide) (fun _ _ ↦ rfl) fun _ _ _ ↦ rfl
      | exact Apart.symm (apart_nested_of (by decide) (fun _ _ ↦ rfl) fun _ _ _ ↦ rfl)
      | exact apart_nested_nested (by decide) (fun _ _ ↦ rfl) (fun _ _ ↦ rfl) fun _ _ _ ↦ rfl
  meets := .cons (meets_of rfl) <| .cons (meets_of rfl) <| .cons (meets_of rfl) <|
    .cons (meets_nested Preamble.lawful rfl) <| .cons (meets_nested Carrier.lawful rfl) <|
    .cons (meets_nested PowerMonitor.lawful rfl) <| .cons (meets_of rfl) <| .cons (meets_of rfl) <|
    .cons (meets_of rfl) .nil

theorem Device.read_record {ms : Members} (h : Fits Device.entries ms) :
    read Device.fields {} (.record ms) = some (Device.overlaid ms) := by
  rw [Device.lawful.read_record h]
  refine foldlM_cons_of h (storeNamed_of Device.clientName h rfl) fun h ↦ ?_
  refine foldlM_cons_of h (storeNamed_of Device.sampleRate h rfl) fun h ↦ ?_
  refine foldlM_cons_of h (storeNamed_of Device.connectSystemPorts h rfl) fun _ ↦ ?_
  rfl

theorem Preamble.read_record {ms : Members} (h : Fits Preamble.entries ms) :
    read Preamble.fields {} (.record ms) = some (Preamble.overlaid ms) := by
  rw [Preamble.lawful.read_record h]
  refine foldlM_cons_of h (storeNamed_of Preamble.ramp h rfl) fun h ↦ ?_
  refine foldlM_cons_of h (storeNamed_of Preamble.amplitude h rfl) fun h ↦ ?_
  refine foldlM_cons_of h (storeNamed_of Preamble.threshold h rfl) fun _ ↦ ?_
  rfl

theorem Carrier.read_record {ms : Members} (h : Fits Carrier.entries ms) :
    read Carrier.fields {} (.record ms) = some (Carrier.overlaid ms) := by
  rw [Carrier.lawful.read_record h]
  refine foldlM_cons_of h (storeNamed_of Carrier.amplitude h rfl) fun h ↦ ?_
  refine foldlM_cons_of h (storeNamed_of Carrier.size h rfl) fun h ↦ ?_
  refine foldlM_cons_of h (storeNamed_of Carrier.headerSize h rfl) fun _ ↦ ?_
  rfl

theorem PowerMonitor.read_record {ms : Members} (h : Fits PowerMonitor.entries ms) :
    read PowerMonitor.fields {} (.record ms) = some (PowerMonitor.overlaid ms) := by
  rw [PowerMonitor.lawful.read_record h]
  refine foldlM_cons_of h (storeNamed_of PowerMonitor.threshold h rfl) fun h ↦ ?_
  refine foldlM_cons_of h (storeNamed_of PowerMonitor.window h rfl) fun _ ↦ ?_
  rfl

theorem Phy.read_record {ms : Members} (h : Fits Phy.entries ms) :
    read Phy.fields {} (.record ms) = some (Phy.overlaid ms) := by
  rw [Phy.lawful.read_record h]
  refine foldlM_cons_of h (storeNamed_of Phy.bytesPerFrame h rfl) fun h ↦ ?_
  refine foldlM_cons_of h (storeNamed_of Phy.frameInterval h rfl) fun h ↦ ?_
  refine foldlM_cons_of h (storeNamed_of Phy.crcPolynomial h rfl) fun h ↦ ?_
  refine foldlM_cons_of h (storeNamed_nested h rfl fun _ ↦ Preamble.read_record) fun h ↦ ?_
  refine foldlM_cons_of h (storeNamed_nested h rfl fun _ ↦ Carrier.read_record) fun h ↦ ?_
  refine foldlM_cons_of h (storeNamed_nested h rfl fun _ ↦ PowerMonitor.read_record) fun h ↦ ?_
  refine foldlM_cons_of h (storeNamed_of Phy.inputBuffer h rfl) fun h ↦ ?_
  refine foldlM_cons_of h (storeNamed_of Phy.outputBuffer h rfl) fun h ↦ ?_
  refine foldlM_cons_of h (storeNamed_of Phy.packetBuffer h rfl) fun _ ↦ ?_
  rfl

theorem Mac.lawful : Lawful {} Mac.fields Mac.entries where
  apart := by
    simp only [Mac.fields, List.pairwise_cons, List.forall_mem_cons, List.not_mem_nil, false_implies,
      implies_true, List.Pairwise.nil, and_true]
    and_intros <;> exact apart_of_of (by decide) fun _ _ _ ↦ rfl
  meets := .cons (meets_of rfl) <| .cons (meets_of rfl) <| .cons (meets_of rfl) <| .cons (meets_of rfl) <|
    .cons (Backoff.meets rfl) <| .cons (meets_of rfl) .nil

theorem Mac.storeNamed_backoff {entries : List Entry} {ms : Members} {m : Mac}
    (hms : Fits (Backoff.entry ({} : Mac).backoff :: entries) ms)
    (hset : { m with backoff := ({} : Mac).backoff } = m) :
    storeNamed ms m (.of "backoff" Backoff.ofJson? fun v m ↦ { m with backoff := v }) =
      some { m with backoff := (Mac.overlaid ms).backoff } := by
  obtain hnone | ⟨j, hsome, inner, kind, rfl, hinner⟩ := member?_cases hms List.mem_cons_self
  · simp only [storeNamed, of, Mac.overlaid]
    rw [show member? "backoff" ms = none from hnone]
    simp [hset]
  · simp only [storeNamed, of, Mac.overlaid]
    rw [show member? "backoff" ms = some (.record inner) from hsome]
    simp [Backoff.ofJson?_complete hinner]

theorem Mac.read_record {ms : Members} (h : Fits Mac.entries ms) :
    read Mac.fields {} (.record ms) = some (Mac.overlaid ms) := by
  rw [Mac.lawful.read_record h]
  refine foldlM_cons_of h (storeNamed_of Mac.address h rfl) fun h ↦ ?_
  refine foldlM_cons_of h (storeNamed_of Mac.bytesPerFrame h rfl) fun h ↦ ?_
  refine foldlM_cons_of h (storeNamed_of Mac.ackTimeout h rfl) fun h ↦ ?_
  refine foldlM_cons_of h (storeNamed_of Mac.maxRetries h rfl) fun h ↦ ?_
  refine foldlM_cons_of h (Mac.storeNamed_backoff h rfl) fun h ↦ ?_
  refine foldlM_cons_of h (storeNamed_of Mac.outputBuffer h rfl) fun _ ↦ ?_
  rfl

theorem lawful : Lawful {} fields entries where
  apart := by
    simp only [fields, List.pairwise_cons, List.forall_mem_cons, List.not_mem_nil, false_implies,
      implies_true, List.Pairwise.nil, and_true]
    and_intros <;> exact apart_nested_nested (by decide) (fun _ _ ↦ rfl) (fun _ _ ↦ rfl) fun _ _ _ ↦ rfl
  meets := .cons (meets_nested Device.lawful rfl) <| .cons (meets_nested Phy.lawful rfl) <|
    .cons (meets_nested Mac.lawful rfl) .nil

theorem read_record {ms : Members} (h : Fits entries ms) :
    read fields {} (.record ms) = some (overlaid ms) := by
  rw [lawful.read_record h]
  refine foldlM_cons_of h (storeNamed_nested h rfl fun _ ↦ Device.read_record) fun h ↦ ?_
  refine foldlM_cons_of h (storeNamed_nested h rfl fun _ ↦ Phy.read_record) fun h ↦ ?_
  refine foldlM_cons_of h (storeNamed_nested h rfl fun _ ↦ Mac.read_record) fun _ ↦ ?_
  rfl

def parse? (text : String) : Option Config := Json.read? text >>= ofJson?

/-- A text that is an object reads as the defaults with its members laid over them, however they are
worded, as long as no member is given twice. -/
theorem parse_object {text : String} {ms : Members} (htext : Json.read? text = some (.record ms)) :
    (Fits entries ms → parse? text = some (overlaid ms)) ∧
    (∀ (text' : String) (ms' : Members), Json.read? text' = some (.record ms') →
      Rewords entries (fun _ ↦ True) ms ms' → parse? text' = parse? text) ∧
    (Repeats entries ms → parse? text = none) := by
  have hparse : ∀ {text ms}, Json.read? text = some (.record ms) →
      parse? text = storeMembers fields [] ms {} := by
    intro text ms htext
    rw [parse?, htext]
    rfl
  refine ⟨fun hms ↦ ?_, fun text' ms' htext' hms ↦ ?_, fun hms ↦ ?_⟩
  · rw [hparse htext]
    exact read_record hms
  · rw [hparse htext, hparse htext', lawful.storeMembers_rewords hms]
  · rw [hparse htext, lawful.storeMembers_repeats hms]

def fixedBackoff : Members :=
  [(Points.ofString "delay_ms", .number ⟨false, ['7'], none, none⟩),
    (Points.ofString "note", .list [.null]), (Points.ofString "kind", .string "fixed")]

def noted : Members :=
  [(Points.ofString "version", .number ⟨false, ['1'], none, some (false, ['9', '9', '9'])⟩),
    (Points.ofString "mac", .record [(Points.ofString "backoff", .record fixedBackoff)])]

def notedText : String :=
  "\x7b\"version\":1e999,\"mac\":\x7b\"backoff\":" ++
    "\x7b\"delay_ms\":7,\"note\":[null],\"kind\":\"fixed\"\x7d\x7d\x7d"

def spelledOutMac : Members :=
  [(Points.ofString "max_retries", .number ⟨false, ['5'], none, none⟩),
    (Points.ofString "backoff", .record fixedBackoff)]

def spelledOutText : String :=
  "\x7b\"mac\":\x7b\"max_retries\":5,\"backoff\":" ++
    "\x7b\"delay_ms\":7,\"note\":[null],\"kind\":\"fixed\"\x7d\x7d\x7d"

def repeated : Members :=
  [(Points.ofString "device", .record [(Points.ofString "sample_rate", .number ⟨false, ['1'], none, none⟩),
    (Points.ofString "sample_rate", .number ⟨false, ['2'], none, none⟩)])]

def repeatedText : String := "\x7b\"device\":\x7b\"sample_rate\":1,\"sample_rate\":2\x7d\x7d"

theorem complete_fixedBackoff : Backoff.Complete "fixed" fixedBackoff where
  known := .inr rfl
  names := ⟨(Points.ofString "kind", .string "fixed"),
    by simp [fixedBackoff, Members.named, Points.ofString_injective.eq_iff], Points.toString?_ofString "fixed"⟩
  fits := by
    have hvalues : (Json.string "fixed").string?.isSome = true ∧
        (Json.number ⟨false, ['7'], none, none⟩).uint64?.isSome = true := by decide
    refine ⟨?_, ?_, ?_⟩
    · simp [fixedBackoff, Points.toString?_ofString]
    · simp [fixedBackoff, Backoff.entries, Entry.leaf, Members.named, Points.ofString_injective.eq_iff]
    · simp [fixedBackoff, Backoff.entries, Entry.leaf, Members.named, Points.ofString_injective.eq_iff, hvalues]
  present := by
    simp [fixedBackoff, Backoff.entries, Entry.leaf, Members.named, Points.ofString_injective.eq_iff]
  idle := by
    simp [fixedBackoff, Backoff.entries, Entry.leaf, Points.ofString_injective.eq_iff, Backoff.Idle, isPlain,
      plainItems, Json.depth, depthItems, Backoff.depthLimit]

theorem fits_noted : Fits entries noted := by
  have hmac : Fits Mac.entries [(Points.ofString "backoff", .record fixedBackoff)] := by
    refine ⟨?_, ?_, ?_⟩
    · simp [Points.toString?_ofString]
    · simp [Mac.entries, Entry.leaf, Backoff.entry, Members.named, Points.ofString_injective.eq_iff]
    · simpa [Mac.entries, Entry.leaf, Backoff.entry, Members.named, Points.ofString_injective.eq_iff] using
        ⟨"fixed", complete_fixedBackoff⟩
  refine ⟨?_, ?_, ?_⟩
  · simp [noted, Points.toString?_ofString]
  · simp [noted, entries, Entry.part, Members.named, Points.ofString_injective.eq_iff]
  · simp [noted, entries, Entry.part, Members.named, Points.ofString_injective.eq_iff, hmac]

theorem rewords_noted :
    Rewords entries (fun _ ↦ True) noted [(Points.ofString "mac", .record spelledOutMac)] := by
  have hmac : Rewords Mac.entries (fun _ ↦ True) [(Points.ofString "backoff", .record fixedBackoff)]
      spelledOutMac :=
    .default (e := .leaf "max_retries" uint32? (some ({} : Mac).maxRetries)) (by simp [Mac.entries])
      (by simp [Entry.leaf, Members.named, Points.ofString_injective.eq_iff]) ⟨5, rfl, by decide⟩
  refine .trans (.symm (.unknown (by simp [entries, Entry.part]) trivial _)) ?_
  exact .value (e := .part "mac" Mac.entries) (by simp [entries]) ⟨_, _, rfl, rfl, hmac⟩ []

theorem repeats_repeated : Repeats entries repeated :=
  ⟨.part "device" Device.entries, by simp [entries], .inr ⟨_, List.mem_singleton_self _, _, rfl,
    .leaf "sample_rate" uint32? (some ({} : Device).sampleRate), by simp [Device.entries], .inl (by decide)⟩⟩

theorem parse_object_noted :
    parse? notedText = some { mac := { backoff := .fixed 7 } } ∧
      parse? spelledOutText = parse? notedText ∧ parse? repeatedText = none := by
  obtain ⟨hfits, hrewords, -⟩ := parse_object (show Json.read? notedText = some (.record noted) from rfl)
  obtain ⟨-, -, hrepeats⟩ := parse_object (show Json.read? repeatedText = some (.record repeated) from rfl)
  have hoverlaid : overlaid noted = { mac := { backoff := .fixed 7 } } := by decide +kernel
  exact ⟨(hfits fits_noted).trans (congrArg some hoverlaid), hrewords _ _ rfl rewords_noted,
    hrepeats repeats_repeated⟩

/-- A number beyond the doubles that a back-off record holds under a name of no meaning makes the text
unreadable, where elsewhere it is ignored. -/
theorem parse_unknown_beyond_double :
    parse? "\x7b\"mac\":\x7b\"backoff\":\x7b\"kind\":\"fixed\",\"delay_ms\":1\x7d\x7d\x7d" =
        some { mac := { backoff := .fixed 1 } } ∧
      parse? "\x7b\"mac\":\x7b\"backoff\":\x7b\"kind\":\"fixed\",\"delay_ms\":1,\"x\":1e400\x7d\x7d\x7d" =
        none := by
  decide +kernel

end SoundLink.Config
