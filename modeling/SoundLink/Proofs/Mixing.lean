import SoundLink.Device.Network
import Mathlib.Tactic

namespace SoundLink

namespace Sample

/-- Samples added in their order, held within the range after each. -/
def mixAll (xs : List Sample) : Sample := xs.foldl mix 0

def total (xs : List Sample) : ℤ := (xs.map Int32.toInt).sum

/-- What the samples above silence add up to. -/
def rise (xs : List Sample) : ℤ := (xs.map fun x ↦ max 0 x.toInt).sum

/-- What the samples below silence add up to. -/
def fall (xs : List Sample) : ℤ := (xs.map fun x ↦ min 0 x.toInt).sum

/-- Whatever leaves the range has nothing of the other sign that could bring it back. -/
def Blends (xs : List Sample) : Prop :=
  (rise xs ≤ 2147483647 ∨ fall xs = 0) ∧ (-2147483648 ≤ fall xs ∨ rise xs = 0)

variable {xs ys : List Sample} {x : Sample}

@[simp] theorem total_cons : total (x :: xs) = x.toInt + total xs := rfl

@[simp] theorem rise_cons : rise (x :: xs) = max 0 x.toInt + rise xs := rfl

@[simp] theorem fall_cons : fall (x :: xs) = min 0 x.toInt + fall xs := rfl

theorem rise_nonneg (xs : List Sample) : 0 ≤ rise xs := by
  induction xs with
  | nil => exact le_rfl
  | cons x xs ih => rw [rise_cons]; omega

theorem fall_nonpos (xs : List Sample) : fall xs ≤ 0 := by
  induction xs with
  | nil => exact le_rfl
  | cons x xs ih => rw [fall_cons]; omega

theorem total_eq (xs : List Sample) : total xs = rise xs + fall xs := by
  induction xs with
  | nil => rfl
  | cons x xs ih => rw [total_cons, rise_cons, fall_cons]; omega

theorem rise_eq_of_perm (h : ys.Perm xs) : rise ys = rise xs := (h.map _).sum_eq

theorem fall_eq_of_perm (h : ys.Perm xs) : fall ys = fall xs := (h.map _).sum_eq

theorem toInt_ofIntClamp (i : ℤ) :
    (Int32.ofIntClamp i).toInt = max (-2147483648) (min i 2147483647) := by
  unfold Int32.ofIntClamp
  have hmin := Int32.toInt_minValue
  have hmax := Int32.toInt_maxValue
  split
  · split
    · rw [Int32.toInt_ofIntLE]; omega
    · omega
  · omega

theorem toInt_mix (a b : Sample) :
    (a.mix b).toInt = max (-2147483648) (min (a.toInt + b.toInt) 2147483647) :=
  toInt_ofIntClamp _

/-- Where nothing that leaves the range can come back, the range may as well be left until the end. -/
theorem toInt_foldl_mix (xs : List Sample) (a : Sample) (hrise : a.toInt + rise xs ≤ 2147483647 ∨ fall xs = 0)
    (hfall : -2147483648 ≤ a.toInt + fall xs ∨ rise xs = 0) :
    (xs.foldl mix a).toInt = max (-2147483648) (min (a.toInt + total xs) 2147483647) := by
  induction xs generalizing a with
  | nil =>
    have hle := a.toInt_lt
    have hge := a.le_toInt
    change a.toInt = max (-2147483648) (min (a.toInt + 0) 2147483647)
    omega
  | cons x xs ih =>
    have hmix := toInt_mix a x
    have hup := rise_nonneg xs
    have hdown := fall_nonpos xs
    have hsum := total_eq xs
    rw [rise_cons, fall_cons] at hrise hfall
    rw [List.foldl_cons, ih (a.mix x) (by omega) (by omega), total_cons]
    omega

theorem Blends.mixAll_eq (h : Blends xs) : mixAll xs = Int32.ofIntClamp (total xs) := by
  rw [← Int32.toInt_inj, toInt_ofIntClamp, mixAll, toInt_foldl_mix]
  · simp
  · simpa using h.1
  · simpa using h.2

theorem Blends.perm (h : Blends xs) (hperm : ys.Perm xs) : Blends ys := by
  rwa [Blends, rise_eq_of_perm hperm, fall_eq_of_perm hperm]

def ups (xs : List Sample) : List Sample := xs.filter (0 ≤ ·.toInt)

def downs (xs : List Sample) : List Sample := xs.filter fun x ↦ !decide (0 ≤ x.toInt)

theorem rise_ups (xs : List Sample) : rise (ups xs) = rise xs ∧ fall (ups xs) = 0 := by
  induction xs with
  | nil => exact ⟨rfl, rfl⟩
  | cons x xs ih =>
    obtain ⟨hrise, hfall⟩ := ih
    unfold ups at *
    by_cases hx : 0 ≤ x.toInt
    · rw [List.filter_cons_of_pos (by simpa using hx), rise_cons, fall_cons, rise_cons]
      omega
    · rw [List.filter_cons_of_neg (by simpa using hx), rise_cons]
      omega

theorem fall_downs (xs : List Sample) : rise (downs xs) = 0 ∧ fall (downs xs) = fall xs := by
  induction xs with
  | nil => exact ⟨rfl, rfl⟩
  | cons x xs ih =>
    obtain ⟨hrise, hfall⟩ := ih
    unfold downs at *
    by_cases hx : 0 ≤ x.toInt
    · rw [List.filter_cons_of_neg (by simpa using hx), fall_cons]
      omega
    · rw [List.filter_cons_of_pos (by simpa using hx), rise_cons, fall_cons, fall_cons]
      omega

theorem ups_append_downs_perm (xs : List Sample) : (ups xs ++ downs xs).Perm xs :=
  List.filter_append_perm _ xs

/-- Of samples of one sign after others of one sign, each part leaves the range on one side at most. -/
theorem toInt_mixAll_append (hxs : rise xs = 0 ∨ fall xs = 0) (hys : rise ys = 0 ∨ fall ys = 0) :
    (mixAll (xs ++ ys)).toInt =
      max (-2147483648) (min (max (-2147483648) (min (total xs) 2147483647) + total ys) 2147483647) := by
  have hzero := Int32.toInt_zero
  have hfirst : (mixAll xs).toInt = max (-2147483648) (min (total xs) 2147483647) := by
    rw [mixAll, toInt_foldl_mix xs 0 (by omega) (by omega), hzero, zero_add]
  have hlt := (mixAll xs).toInt_lt
  have hle := (mixAll xs).le_toInt
  rw [← hfirst, mixAll, List.foldl_append]
  exact toInt_foldl_mix ys (mixAll xs) (by omega) (by omega)

/-- The order is of no account exactly where the mix is the sum. -/
theorem blends_iff : Blends xs ↔ ∀ ys, ys.Perm xs → mixAll ys = mixAll xs := by
  constructor
  · intro h ys hperm
    rw [(h.perm hperm).mixAll_eq, h.mixAll_eq, total, total, (hperm.map _).sum_eq]
  · intro h
    have hfirst := ups_append_downs_perm xs
    have hsame : mixAll (ups xs ++ downs xs) = mixAll (downs xs ++ ups xs) :=
      (h _ hfirst).trans (h _ (List.perm_append_comm.trans hfirst)).symm
    obtain ⟨hrise, hfall⟩ := rise_ups xs
    obtain ⟨hrise', hfall'⟩ := fall_downs xs
    rw [← Int32.toInt_inj, toInt_mixAll_append (.inr hfall) (.inl hrise'),
      toInt_mixAll_append (.inl hrise') (.inr hfall), total_eq (ups xs), total_eq (downs xs), hrise, hfall,
      hrise', hfall'] at hsame
    have hup := rise_nonneg xs
    have hdown := fall_nonpos xs
    unfold Blends
    omega

end Sample

def Callback.Fills (f : Callback) : Prop := ∀ heard buffer, (f heard buffer).length = buffer.length

namespace Network

variable {τ : Type}

inductive Turn
  | start (i : ℕ)
  | stop (i : ℕ)
  | period (f : ℕ → Callback)

/-- A node that runs already goes on. -/
def turn (w : Network τ) : Turn → Network τ
  | .start i => match w.start i with
    | .ok w => w
    | .error _ => w
  | .stop i => w.stop i
  | .period f => w.tick f

def run (w : Network τ) (turns : List Turn) : Network τ := turns.foldl turn w

/-- What the tap remembers when it comes to the `i`-th node of a period. -/
def memoryAt (w : Network τ) (f : ℕ → Callback) (i : ℕ) : τ :=
  (w.nodes.zipIdx.take i).foldl (fun t n ↦ (w.tap t n.2 (w.spoken f n.2 n.1)).2) w.memory

/-- What the `i`-th node says in a period, as the tap leaves it. -/
def said (w : Network τ) (f : ℕ → Callback) (i : ℕ) (node : Node) : List Sample :=
  (w.tap (w.memoryAt f i) i (w.spoken f i node)).1

/-- The samples said on a bus at one place of the block of a period, in the order of the nodes. -/
def voices (w : Network τ) (f : ℕ → Callback) (b j : ℕ) : List Sample :=
  (w.nodes.zipIdx.filter fun n ↦ n.1.link.speaks = b).map fun n ↦ (w.said f n.2 n.1).getD j 0

structure Steady (w : Network τ) : Prop where
  length_tap : ∀ t i block, (w.tap t i block).1.length = block.length
  length_output : ∀ node ∈ w.nodes, node.output.length = w.size

variable {w : Network τ} {f : ℕ → Callback}

theorem length_silence (n : ℕ) : (Device.silence n).length = n := List.length_replicate

theorem steady_ofLinks (links : List Link) (size : ℕ) {tap : τ → ℕ → List Sample → List Sample × τ}
    (htap : ∀ t i block, (tap t i block).1.length = block.length) (memory : τ) :
    (ofLinks links size tap memory).Steady := by
  refine ⟨htap, fun node hnode ↦ ?_⟩
  obtain ⟨link, -, rfl⟩ := List.mem_map.1 hnode
  exact length_silence _

theorem length_foldl_mix {n : ℕ} (nodes : List Node) (p : Node → Prop) [DecidablePred p]
    (hnodes : ∀ node ∈ nodes, node.output.length = n) {mixed : List Sample} (hmixed : mixed.length = n) :
    (nodes.foldl (fun mix node ↦ if p node then List.zipWith Sample.mix mix node.output else mix)
      mixed).length = n := by
  induction nodes generalizing mixed with
  | nil => exact hmixed
  | cons node nodes ih =>
    obtain ⟨hnode, hnodes⟩ := List.forall_mem_cons.1 hnodes
    rw [List.foldl_cons]
    refine ih hnodes ?_
    split
    · rw [List.length_zipWith, hmixed, hnode, min_self]
    · exact hmixed

theorem Steady.length_bus (h : w.Steady) (b : ℕ) : (w.bus b).length = w.size :=
  length_foldl_mix w.nodes (·.link.speaks = b) h.length_output (length_silence _)

theorem Steady.length_said (h : w.Steady) (hf : ∀ i, (f i).Fills) {i : ℕ} {node : Node}
    (hnode : node ∈ w.nodes) : (w.said f i node).length = w.size := by
  rw [said, h.length_tap, spoken]
  split
  · rw [hf, h.length_output node hnode]
  · exact length_silence _

theorem speak_cons (w : Network τ) (f : ℕ → Callback) (t : τ) (node : Node) (i : ℕ) (rest : List (Node × ℕ)) :
    w.speak f t ((node, i) :: rest) =
      ({ node with output := (w.tap t i (w.spoken f i node)).1 } ::
        (w.speak f (w.tap t i (w.spoken f i node)).2 rest).1,
        (w.speak f (w.tap t i (w.spoken f i node)).2 rest).2) := rfl

theorem memoryAt_concat {front rest : List (Node × ℕ)} {node : Node} {i : ℕ}
    (hsplit : w.nodes.zipIdx = front ++ (node, i) :: rest) :
    w.memoryAt f (front ++ [(node, i)]).length =
      (w.tap (w.memoryAt f front.length) i (w.spoken f i node)).2 := by
  have hnext : front ++ (node, i) :: rest = (front ++ [(node, i)]) ++ rest := by simp
  rw [memoryAt, memoryAt, hsplit, List.take_left, hnext, List.take_left, List.foldl_concat]

theorem speak_eq {front rest : List (Node × ℕ)} (hsplit : w.nodes.zipIdx = front ++ rest) :
    (w.speak f (w.memoryAt f front.length) rest).1 =
      rest.map fun n ↦ { n.1 with output := w.said f n.2 n.1 } := by
  induction rest generalizing front with
  | nil => rfl
  | cons n rest ih =>
    obtain ⟨node, i⟩ := n
    have hi : i = front.length := by
      have hplace : w.nodes.zipIdx[front.length]? = some (node, i) := by
        rw [hsplit, List.getElem?_append_right le_rfl, Nat.sub_self]
        rfl
      obtain ⟨_, -, hsame⟩ := Option.map_eq_some_iff.1 (List.getElem?_zipIdx.symm.trans hplace)
      exact (congrArg Prod.snd hsame).symm.trans (Nat.zero_add _)
    have hrest := ih (hsplit.trans (List.append_cons front _ rest))
    rw [memoryAt_concat hsplit] at hrest
    rw [speak_cons, hrest, List.map_cons, said, hi]

theorem nodes_tick (w : Network τ) (f : ℕ → Callback) :
    (w.tick f).nodes = w.nodes.zipIdx.map fun n ↦ { n.1 with output := w.said f n.2 n.1 } := by
  have hsplit : w.nodes.zipIdx = [] ++ w.nodes.zipIdx := rfl
  exact speak_eq hsplit

theorem Steady.tick (h : w.Steady) (hf : ∀ i, (f i).Fills) : (w.tick f).Steady := by
  refine ⟨h.length_tap, fun node hnode ↦ ?_⟩
  rw [nodes_tick] at hnode
  obtain ⟨⟨node, i⟩, hn, rfl⟩ := List.mem_map.1 hnode
  exact h.length_said hf (List.fst_mem_of_mem_zipIdx hn)

theorem length_output_modify {n : ℕ} {nodes : List Node} (hnodes : ∀ node ∈ nodes, node.output.length = n)
    (i : ℕ) (running : Bool) :
    ∀ node ∈ nodes.modify i ({ · with running }), node.output.length = n := by
  intro node hnode
  obtain ⟨k, hk⟩ := List.mem_iff_getElem?.1 hnode
  rw [List.getElem?_modify] at hk
  obtain ⟨before, hbefore, rfl⟩ := Option.map_eq_some_iff.1 hk
  have hlength := hnodes before (List.mem_of_getElem? hbefore)
  split
  · exact hlength
  · exact hlength

theorem turn_start (w : Network τ) (i : ℕ) :
    w.turn (.start i) = w ∨
      w.turn (.start i) = { w with nodes := w.nodes.modify i ({ · with running := true }) } := by
  rw [turn, start]
  by_cases hruns : (w.nodes[i]?).any Node.running = true
  · left
    rw [if_pos hruns]
  · right
    rw [if_neg hruns]

theorem Steady.turn (h : w.Steady) {t : Turn} (hfills : ∀ f, t = .period f → ∀ i, (f i).Fills) :
    (w.turn t).Steady := by
  cases t with
  | start i =>
    obtain hsame | hstarted := w.turn_start i
    · rwa [hsame]
    · rw [hstarted]
      exact ⟨h.length_tap, length_output_modify h.length_output i true⟩
  | stop i =>
    refine ⟨h.length_tap, fun node hnode ↦ ?_⟩
    have hmodify := length_output_modify h.length_output i false
    unfold Network.turn stop at hnode
    dsimp only at hnode
    split at hnode
    · exact hmodify node hnode
    · obtain ⟨before, -, rfl⟩ := List.mem_map.1 hnode
      exact length_silence _
  | period f => exact h.tick (hfills f rfl)

theorem Steady.run (h : w.Steady) {turns : List Turn}
    (hfills : ∀ f, .period f ∈ turns → ∀ i, (f i).Fills) : (w.run turns).Steady := by
  induction turns generalizing w with
  | nil => exact h
  | cons t turns ih =>
    refine ih (h.turn fun f hf ↦ hfills f ?_) fun f hf ↦ hfills f (List.mem_cons_of_mem _ hf)
    rw [hf]
    exact List.mem_cons_self

theorem size_run (w : Network τ) (turns : List Turn) : (w.run turns).size = w.size := by
  induction turns generalizing w with
  | nil => rfl
  | cons t turns ih =>
    refine (ih (w.turn t)).trans ?_
    cases t with
    | start i => obtain hsame | hstarted := w.turn_start i <;> simp only [*]
    | stop i => rfl
    | period f => rfl

theorem getElem?_foldl_mix {n j : ℕ} (hj : j < n) (nodes : List Node) (p : Node → Prop) [DecidablePred p]
    (hnodes : ∀ node ∈ nodes, node.output.length = n) {mixed : List Sample} (hmixed : mixed.length = n) :
    (nodes.foldl (fun mix node ↦ if p node then List.zipWith Sample.mix mix node.output else mix) mixed)[j]? =
      some (((nodes.filter p).map (·.output.getD j 0)).foldl Sample.mix (mixed.getD j 0)) := by
  induction nodes generalizing mixed with
  | nil => simp [List.getD_eq_getElem?_getD, List.getElem?_eq_getElem (hmixed ▸ hj)]
  | cons node nodes ih =>
    obtain ⟨hnode, hnodes⟩ := List.forall_mem_cons.1 hnodes
    rw [List.foldl_cons]
    by_cases hp : p node
    · have hzip : (List.zipWith Sample.mix mixed node.output).length = n := by
        rw [List.length_zipWith, hmixed, hnode, min_self]
      rw [if_pos hp, ih hnodes hzip, List.filter_cons_of_pos (by simpa using hp), List.map_cons,
        List.foldl_cons]
      have hfirst : (List.zipWith Sample.mix mixed node.output).getD j 0 =
          (mixed.getD j 0).mix (node.output.getD j 0) := by
        simp [List.getD_eq_getElem?_getD, List.getElem?_zipWith, List.getElem?_eq_getElem (hmixed ▸ hj),
          List.getElem?_eq_getElem (hnode ▸ hj)]
      rw [hfirst]
    · rw [if_neg hp, ih hnodes hmixed, List.filter_cons_of_neg (by simpa using hp)]

theorem Steady.getElem?_bus (h : w.Steady) (hf : ∀ i, (f i).Fills) (b : ℕ) {j : ℕ} (hj : j < w.size) :
    ((w.tick f).bus b)[j]? = some (Sample.mixAll (w.voices f b j)) := by
  have hsilence : (Device.silence w.size).getD j 0 = 0 := by
    simp [Device.silence, List.getD_eq_getElem?_getD, hj]
  have hmix := getElem?_foldl_mix hj (w.tick f).nodes (·.link.speaks = b) (h.tick hf).length_output
    (length_silence w.size)
  rw [hsilence] at hmix
  refine hmix.trans ?_
  rw [nodes_tick, List.filter_map, List.map_map]
  rfl

theorem bus_congr {w' : Network τ} (hsize : w'.size = w.size)
    (hnodes : w'.nodes.map (fun node ↦ (node.link, node.output)) =
      w.nodes.map fun node ↦ (node.link, node.output)) (b : ℕ) : w'.bus b = w.bus b := by
  have hfold : ∀ v : Network τ, v.bus b = (v.nodes.map fun node ↦ (node.link, node.output)).foldl
      (fun mix n ↦ if n.1.speaks = b then List.zipWith Sample.mix mix n.2 else mix)
      (Device.silence v.size) := fun v ↦ by
    rw [List.foldl_map]
    rfl
  rw [hfold, hfold, hnodes, hsize]

theorem map_modify_running (nodes : List Node) (i : ℕ) (running : Bool) :
    (nodes.modify i ({ · with running })).map (fun node ↦ (node.link, node.output)) =
      nodes.map fun node ↦ (node.link, node.output) := by
  refine List.ext_getElem? fun k ↦ ?_
  rw [List.getElem?_map, List.getElem?_map, List.getElem?_modify]
  cases nodes[k]? with
  | none => rfl
  | some node => by_cases hi : i = k <;> simp [hi]

theorem turn_stop (w : Network τ) (i : ℕ) :
    w.turn (.stop i) = { w with nodes := w.nodes.modify i ({ · with running := false }) } ∨
      (w.turn (.stop i)).nodes.any Node.running = false := by
  rw [turn, stop]
  by_cases hruns : (w.nodes.modify i ({ · with running := false })).any Node.running = true
  · left
    rw [if_pos hruns]
  · right
    dsimp only
    rw [if_neg hruns, List.any_map]
    exact Bool.eq_false_of_not_eq_true hruns

/-- A medium that goes on is not changed by those who come and go before the next period. -/
theorem bus_run_of_goes {later : List Turn} (hlater : ∀ t ∈ later, ∀ g, t ≠ .period g)
    (hgoes : ∀ l, l <+: later → (w.run l).nodes.any Node.running) (b : ℕ) :
    (w.run later).bus b = w.bus b := by
  induction later generalizing w with
  | nil => rfl
  | cons t later ih =>
    obtain ⟨ht, hlater⟩ := List.forall_mem_cons.1 hlater
    have hturn : (w.turn t).bus b = w.bus b := by
      cases t with
      | start i =>
        obtain hsame | hstarted := w.turn_start i
        · rw [hsame]
        · rw [hstarted]
          refine bus_congr ?_ (map_modify_running w.nodes i true) b
          rfl
      | stop i =>
        obtain hstopped | hlast := w.turn_stop i
        · rw [hstopped]
          refine bus_congr ?_ (map_modify_running w.nodes i false) b
          rfl
        · exact absurd (hgoes [.stop i] (List.prefix_append _ _)) (Bool.eq_false_iff.1 hlast)
      | period g => exact absurd rfl (ht g)
    exact (ih hlater fun l hl ↦ hgoes (t :: l) (List.cons_prefix_cons.2 ⟨rfl, hl⟩)).trans hturn

/-- Whatever has happened to a medium before a period, and whoever comes and goes after it as long as it goes on:
a node that runs hears next what was said on its bus in that period, as the tap left it by what it remembered of
all the blocks before. Each place is the samples added in the order of the nodes and held within the range after
each. That is their sum, held within the range once, and it is the same for every order and numbering of the
nodes, unless they leave the range on one side and have something on the other. -/
theorem hears_mix (links : List Link) (size : ℕ) {tap : τ → ℕ → List Sample → List Sample × τ}
    (htap : ∀ t i block, (tap t i block).1.length = block.length) (memory : τ)
    {turns later : List Turn} {f : ℕ → Callback}
    (hturns : ∀ g, .period g ∈ turns ++ [.period f] → ∀ i, (g i).Fills)
    (hlater : ∀ t ∈ later, ∀ g, t ≠ .period g)
    (hgoes : ∀ l, l <+: later →
      (((ofLinks links size tap memory).run (turns ++ [.period f])).run l).nodes.any Node.running)
    {i : ℕ} {node : Node}
    (hnode : (((ofLinks links size tap memory).run (turns ++ [.period f])).run later).nodes[i]? = some node)
    (hruns : node.running = true) :
    let w := (ofLinks links size tap memory).run turns
    ∃ block, ((w.tick f).run later).heard[i]? = some (some block) ∧ block.length = max 1 size ∧
      ∀ j < max 1 size,
        let voices := w.voices f node.link.listens j
        block[j]? = some (Sample.mixAll voices) ∧
          (Sample.Blends voices → Sample.mixAll voices = Int32.ofIntClamp (Sample.total voices)) ∧
          (Sample.Blends voices ↔
            ∀ others, others.Perm voices → Sample.mixAll others = Sample.mixAll voices) := by
  intro w
  have hperiod : (ofLinks links size tap memory).run (turns ++ [.period f]) = w.tick f := List.foldl_append
  rw [hperiod] at hgoes hnode
  have hsteady : w.Steady := (steady_ofLinks links size htap memory).run fun g hg ↦
    hturns g (List.mem_append_left _ hg)
  have hf : ∀ i, (f i).Fills := hturns f (List.mem_append_right _ List.mem_cons_self)
  have hsize : w.size = max 1 size := size_run _ turns
  refine ⟨(w.tick f).bus node.link.listens, ?_, ?_, fun j hj ↦ ⟨?_, fun h ↦ h.mixAll_eq, ?_⟩⟩
  · rw [heard, List.getElem?_map, hnode, Option.map_some, if_pos hruns, bus_run_of_goes hlater hgoes]
  · rw [(hsteady.tick hf).length_bus]
    exact hsize
  · exact hsteady.getElem?_bus hf node.link.listens (hsize ▸ hj)
  · exact Sample.blends_iff

/-- Three nodes on one bus, the tap of which counts the blocks and turns over the fifth: that is what the second
node says in the second period, which has stopped before it is heard. Only the first place blends. -/
theorem hears_mix_three :
    let tap : ℕ → ℕ → List Sample → List Sample × ℕ := fun n _ block ↦
      (if n = 4 then block.map (-·) else block, n + 1)
    let f : ℕ → Callback := fun _ ↦ Device.overlay [2147483647, 2147483647]
    let g : ℕ → Callback := fun i ↦ Device.overlay (if i = 2 then [1, 2147483647] else [5, 2147483647])
    let w := (ofLinks (shared 3) 2 tap 0).run [.start 2, .start 0, .period f, .start 1]
    ((w.tick g).run [.stop 1]).heard = [some [1, 2147483647], none, some [1, 2147483647]] ∧
      (w.voices g 0 0 = [5, -5, 1] ∧ w.voices g 0 1 = [2147483647, -2147483647, 2147483647]) ∧
      ∃ block, ((w.tick g).run [.stop 1]).heard[2]? = some (some block) ∧ block.length = 2 ∧
        ∀ j < 2, block[j]? = some (Sample.mixAll (w.voices g 0 j)) ∧
          (Sample.Blends (w.voices g 0 j) →
            Sample.mixAll (w.voices g 0 j) = Int32.ofIntClamp (Sample.total (w.voices g 0 j))) ∧
          (Sample.Blends (w.voices g 0 j) ↔ ∀ others, others.Perm (w.voices g 0 j) →
            Sample.mixAll others = Sample.mixAll (w.voices g 0 j)) := by
  intro tap f g w
  have htap : ∀ n i block, (tap n i block).1.length = block.length := by
    intro n i block
    by_cases hn : n = 4 <;> simp [tap, hn]
  have hoverlay : ∀ block, (Device.overlay block).Fills := by
    intro block heard buffer
    simp [Device.overlay]
    omega
  have hturns : ∀ h, Turn.period h ∈ [.start 2, .start 0, .period f, .start 1] ++ [.period g] →
      ∀ i, (h i).Fills := by
    intro h hmem i
    simp at hmem
    obtain rfl | rfl := hmem
    · exact hoverlay _
    · exact hoverlay _
  have hgoes : ∀ l, l <+: [Turn.stop 1] → (((ofLinks (shared 3) 2 tap 0).run
      ([.start 2, .start 0, .period f, .start 1] ++ [.period g])).run l).nodes.any Node.running := by
    intro l hl
    obtain rfl | ⟨l, rfl, hnil⟩ := List.prefix_cons_iff.1 hl
    · decide +kernel
    · rw [List.prefix_nil.1 hnil]
      decide +kernel
  have hthird : ((((ofLinks (shared 3) 2 tap 0).run ([.start 2, .start 0, .period f, .start 1] ++
      [.period g])).run [.stop 1]).nodes[2]?).map (fun node ↦ (node.link.listens, node.running)) =
        some (0, true) := by
    decide +kernel
  obtain ⟨node, hnode, hthird⟩ := Option.map_eq_some_iff.1 hthird
  obtain ⟨hbus, hruns⟩ := Prod.mk.inj hthird
  have hmix := hears_mix (shared 3) 2 htap 0 hturns (by simp) hgoes hnode hruns
  rw [hbus] at hmix
  exact ⟨by decide +kernel, by decide +kernel, hmix⟩

/-- Two loud samples and a loud one of the other sign: the mix is not the sum, and another order changes it. -/
theorem heard_mixed_signs :
    let talk : List Sample → Network Unit := fun said ↦
      ((ofLinks (shared 3) 1 (fun _ _ block ↦ (block, ())) ()).run [.start 0, .start 1, .start 2]).tick
        fun i ↦ Device.overlay [said.getD i 0]
    (talk [2147483647, 2147483647, -2147483648]).heard = List.replicate 3 (some [-1]) ∧
      Int32.ofIntClamp (Sample.total [2147483647, 2147483647, -2147483648]) = 2147483646 ∧
      (talk [2147483647, -2147483648, 2147483647]).heard = List.replicate 3 (some [2147483646]) := by
  decide +kernel

end Network

end SoundLink
