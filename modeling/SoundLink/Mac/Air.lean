import SoundLink.Frame.Demodulator
import SoundLink.Mac.Sending

namespace SoundLink

namespace Incident

def ofEvent : Event → Incident
  | .packet bytes => .packet bytes
  | .error e => .disturbance e

def packet? : Incident → Option (List UInt8)
  | .packet bytes => some bytes
  | _ => none

end Incident

/-- What a listener makes of a packet. The silence before it fills a window, and the silence after
it is long enough for a preamble to be taken and for a frame that is still being read to break off. -/
def Config.Phy.carry (c : Config.Phy) (packet : List UInt8) : List Incident :=
  match c.modulator.modulate packet with
  | .error _ => []
  | .ok samples =>
    let d := c.demodulator
    let before := List.replicate d.filter.span 0
    let after := List.replicate (d.filter.span + 1 + 2 * LineCode.wordBits * max d.size d.headerSize) 0
    (Demodulator.events (d.run .initial (before ++ samples ++ after)).2).map .ofEvent

namespace Medium

def hearAll (packets : List (List UInt8)) (stations : List Station) : List Station × List MacHeader :=
  let heard := stations.map (·.handleAll packets)
  (heard.map Prod.fst, heard.flatMap Prod.snd)

/-- The air that a station shares with others, of which none is sending. A station hears itself;
one that waits for no acknowledgement passes over those it hears. -/
def shared (carry : List UInt8 → List Incident) : Medium (List Station) where
  play others frame :=
    let direct := carry frame
    let (others, acks) := hearAll (direct.filterMap Incident.packet?) others
    (others, .played (direct ++ acks.flatMap fun h ↦ carry h.bytes))
  answer others ack := (others, (carry ack).filterMap Incident.packet?)

end Medium

def Station.sendAmong (carry : List UInt8 → List Incident) (stations : List Station)
    (i : Fin stations.length) (destination : UInt8) (payload : List UInt8) :
    List Station × Except MacError Unit :=
  let (w, result) := (⟨stations[i], stations.eraseIdx i, []⟩ : Session (List Station)).send
    (Medium.shared carry) destination payload
  (w.medium.insertIdx i w.station, result)

end SoundLink
