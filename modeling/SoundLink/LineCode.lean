namespace SoundLink.LineCode

def wordBits : Nat := 10

/-- The bits of a codeword in the order they are sent, the lowest first. -/
def bits (code : UInt16) : List Bool := (List.range wordBits).map code.toNat.testBit

/-- The lengths of the runs of equal bits, `n` bits equal to `b` having gone before. -/
def runsFrom (b : Bool) (n : Nat) : List Bool → List Nat
  | [] => [n]
  | c :: cs => if c = b then runsFrom b (n + 1) cs else n :: runsFrom c 1 cs

def runs : List Bool → List Nat
  | [] => []
  | b :: bs => runsFrom b 1 bs

def weight (code : UInt16) : Nat := (bits code).count true

def isAdmissible (code : UInt16) : Bool :=
  let rs := runs (bits code)
  rs.all (· ≤ 3) && rs.head?.all (· ≤ 2) && rs.getLast?.all (· ≤ 2)

def admissible : List UInt16 := ((List.range 1024).map UInt16.ofNat).filter isAdmissible

/-- The codeword of each byte: the balanced words in order, then those one bit off balance. -/
def codewords : List UInt16 :=
  (admissible.filter (weight · = 5) ++ admissible.filter fun c ↦ weight c = 4 || weight c = 6).take 256

def encode (b : UInt8) : UInt16 := codewords.getD b.toNat 0

def decode (code : UInt16) : Option UInt8 := (codewords.idxOf? code).map UInt8.ofNat

def sent (b : UInt8) : List Bool := bits (encode b)

end SoundLink.LineCode
