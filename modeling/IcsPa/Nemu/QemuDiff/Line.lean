import IcsPa.Nemu.QemuDiff.Protocol

/-! # The line to the stub

    `gdb_send` and `gdb_recv` of `protocol.c` over a line that damages packets
    in both directions.  The other end follows the protocol.  It answers `+`
    to a packet whose sum is right, carries it out and replies with a packet
    of its own; it answers `-` to any other packet, and it sends its reply
    again when it hears `-`.

    The line damages some of the packets, a finite number in a run, and never
    so that the sum still fits.  The acknowledgements themselves arrive. -/

open CCall Packet

namespace Nemu.QemuDiff

/-! ## Section 1: The other end -/

/-- How the stub writes the bytes of a reply into a packet. -/
structure Encoder where
  tokens  : List UInt8 → List Token
  valid   : ∀ l, Packet.Valid [] (tokens l)
  meaning : ∀ l, Packet.meaning [] (tokens l) = l

/-- The encoder that escapes and never repeats. -/
def plain_encoder : Encoder where
  tokens := escape
  valid l := valid_escape l []
  meaning l := meaning_escape l []

/-- The stub with the packets that it has carried out, its last packet, and
    what becomes of the packets to come: one that is damaged arrives as the
    bytes given here. -/
structure Wire (σ : Type) where
  stub  : σ
  log   : List (List UInt8 × List UInt8)
  last  : List UInt8
  noise : List (Option (List UInt8))

/-- The far end, the bytes that the client can read, and `conn->ack`. -/
structure Link (σ : Type) where
  far  : Wire σ
  input  : List UInt8
  ack  : Bool

section line
variable {σ : Type} (P : Peer σ) (E : Encoder)

/-- A packet on the line. -/
def transmit (packet : List UInt8) (w : Wire σ) : List UInt8 × Wire σ :=
  match w.noise with
  | [] => (packet, w)
  | n :: noise => (n.getD packet, { w with noise := noise })

/-- The stub carries out a packet. -/
def carry_out (command : List UInt8) (w : Wire σ) : Wire σ :=
  let (stub, reply) := P.answer w.stub command
  { w with
    stub := stub
    log  := w.log ++ [(command, reply)]
    last := frame (text (E.tokens reply)) }

/-- What the client can read after it has flushed some bytes. -/
def hear (bytes : List UInt8) (w : Wire σ) : List UInt8 × Wire σ :=
  if bytes = [Hex.ascii '+'] then ([], w)
  else if bytes = [Hex.ascii '-'] then transmit w.last w
  else
    let (arrived, w) := transmit bytes w
    match receive arrived with
    | some (command, true, _) =>
        let w := carry_out P E command w
        let (packet, w) := transmit w.last w
        (Hex.ascii '+' :: packet, w)
    | _ => ([Hex.ascii '-'], w)

/-! ## Section 2: The client -/

/-- `fflush(conn->out)` -/
def flush (bytes : List UInt8) (k : Link σ) : Link σ :=
  let (more, far) := hear P E bytes k.far
  { k with far := far, input := k.input ++ more }

/-- `gdb_send`, for at most `n` turns. -/
def gdb_send : Nat → List UInt8 → Link σ → Except Fault (Link σ)
  | 0, _, _ => .error .diverges
  | n + 1, command, k =>
      let k := flush P E (send_packet command) k
      if k.ack = false then .ok k
      else
        let acked := k.input.head? = some (Hex.ascii '+')
        let k := { k with input := k.input.tail }
        if acked then .ok k else gdb_send n command k

/-- `gdb_recv`, for at most `n` turns; `none` if the process exits. -/
def gdb_recv : Nat → Link σ → Except Fault (Option (List UInt8 × Link σ))
  | 0, _ => .error .diverges
  | n + 1, k => do
      let r ← recv_packet k.input
      match r with
      | .exit => return none
      | .packet reply _ acked rest =>
          let k := { k with input := rest }
          if k.ack = false then return some (reply, k)
          else
            let k := flush P E [if acked then Hex.ascii '+' else Hex.ascii '-'] k
            if acked then return some (reply, k) else gdb_recv n k

/-- `gdb_send(conn, p, strlen(p)); reply = gdb_recv(conn, &size);` -/
def send_recv (n : Nat) (p : List UInt8) (k : Link σ) :
    Except Fault (Option (List UInt8 × Link σ)) := do
  let k ← gdb_send P E n p k
  gdb_recv P E n k

end line

/-! ## Section 3: Packets on the line -/

/-- A packet that has arrived with a wrong sum. -/
def Damaged (t : List UInt8) : Prop := ∃ reply, receive t = some (reply, false, [])

/-- No damaged packet looks like a good one. -/
def Noise (l : List (Option (List UInt8))) : Prop := ∀ t, some t ∈ l → Damaged t

/-- The bytes that stand for themselves in a packet. -/
def Plain (p : List UInt8) : Prop := ∀ c ∈ p, special c = false

/-- Between two exchanges. -/
structure Ready {σ : Type} (k : Link σ) : Prop where
  input   : k.input = []
  ack   : k.ack = true
  noise : Noise k.far.noise

theorem receive_send_packet {p : List UInt8} (hp : Plain p) :
    receive (send_packet p) = some (p, true, []) := by
  have h := receive_frame [] List.not_mem_nil (valid_escape p []) []
  rwa [text_escape hp, meaning_escape, List.append_nil, List.nil_append] at h

theorem receive_reply (E : Encoder) (reply : List UInt8) :
    receive (frame (text (E.tokens reply))) = some (reply, true, []) := by
  have h := receive_frame [] List.not_mem_nil (E.valid reply) []
  rwa [E.meaning, List.append_nil, List.nil_append] at h

/-- A packet arrives, or it is damaged and there is less noise to come. -/
theorem transmit_cases {σ : Type} {w : Wire σ} (hw : Noise w.noise) (packet : List UInt8) :
    ∃ noise, (transmit packet w).2 = { w with noise := noise } ∧ Noise noise ∧
      noise.length ≤ w.noise.length ∧
      ((transmit packet w).1 = packet ∨
        Damaged (transmit packet w).1 ∧ noise.length < w.noise.length) := by
  obtain ⟨stub, log, last, noise⟩ := w
  cases noise with
  | nil => exact ⟨[], rfl, fun t ht => absurd ht List.not_mem_nil, Nat.le_refl _, .inl rfl⟩
  | cons n noise =>
    have hrest : Noise noise := fun t ht => hw t (List.mem_cons_of_mem n ht)
    refine ⟨noise, rfl, hrest, Nat.le_succ _, ?_⟩
    cases n with
    | none => exact .inl rfl
    | some t => exact .inr ⟨hw t List.mem_cons_self, Nat.lt_succ_self _⟩

/-! ## Section 4: Turns of the client -/

section turns
variable {σ : Type} {P : Peer σ} {E : Encoder} {k : Link σ}

/-- The reply to a packet that the stub has carried out once is on its way. -/
structure Replied (P : Peer σ) (E : Encoder) (p : List UInt8) (w : Wire σ) (k : Link σ) : Prop where
  ack   : k.ack = true
  far   : ∃ noise, k.far = { carry_out P E p w with noise := noise }
  noise : Noise k.far.noise
  input   : k.input = k.far.last ∧ k.far.noise.length ≤ w.noise.length ∨
    Damaged k.input ∧ k.far.noise.length < w.noise.length

/-- The stub refuses a damaged packet. -/
theorem hear_damaged {w : Wire σ} {t : List UInt8} {noise : List (Option (List UInt8))}
    {p : List UInt8}
    (hplus : p ≠ [Hex.ascii '+']) (hminus : p ≠ [Hex.ascii '-']) (ht : Damaged t)
    (harrive : transmit p w = (t, { w with noise := noise })) :
    hear P E p w = ([Hex.ascii '-'], { w with noise := noise }) := by
  obtain ⟨reply, hreply⟩ := ht
  unfold hear
  rw [if_neg hplus, if_neg hminus, harrive]
  show (match receive t with
    | some (command, true, _) => _
    | _ => _) = _
  rw [hreply]

/-- It carries out a packet that arrives, and replies. -/
theorem hear_packet {w : Wire σ} {p command : List UInt8} {noise : List (Option (List UInt8))}
    (hplus : p ≠ [Hex.ascii '+']) (hminus : p ≠ [Hex.ascii '-'])
    (hp : receive p = some (command, true, []))
    (harrive : transmit p w = (p, { w with noise := noise })) :
    hear P E p w =
      (Hex.ascii '+' :: (transmit (carry_out P E command w).last
        { carry_out P E command w with noise := noise }).1,
        (transmit (carry_out P E command w).last { carry_out P E command w with noise :=
          noise }).2) := by
  unfold hear
  rw [if_neg hplus, if_neg hminus, harrive]
  show (match receive p with
    | some (command, true, _) => _
    | _ => _) = _
  rw [hp]
  rfl

theorem send_packet_ne (p : List UInt8) (c : UInt8) (hc : c ≠ START) : send_packet p ≠ [c] := by
  intro h
  exact hc (List.cons.inj h).1.symm

/-- `gdb_send` returns when the packet has arrived, and it has arrived once. -/
theorem gdb_send_replied {p : List UInt8} (hp : Plain p) {n : Nat} (hk : Ready k)
    (hn : k.far.noise.length < n) :
    ∃ k', gdb_send P E n p k = .ok k' ∧ Replied P E p k.far k' := by
  induction n generalizing k with
  | zero => exact absurd hn (Nat.not_lt_zero _)
  | succ n ih =>
    have hplus := send_packet_ne p (Hex.ascii '+') (by decide)
    have hminus := send_packet_ne p (Hex.ascii '-') (by decide)
    obtain ⟨far, input, ack⟩ := k
    obtain ⟨hinput, hack, hnoise⟩ := hk
    subst hinput hack
    obtain ⟨noise, hfar, hrest, hle, harrive⟩ := transmit_cases hnoise (send_packet p)
    rcases harrive with hgood | ⟨hbad, hlt⟩
    · -- The packet has arrived, and the reply may be damaged.
      have htransmit : transmit (send_packet p) far = (send_packet p,
          { far with noise := noise }) :=
        Prod.ext hgood hfar
      have hhear := hear_packet (P := P) (E := E) hplus hminus (receive_send_packet hp) htransmit
      obtain ⟨noise', hfar', hrest', hle', harrive'⟩ :=
        transmit_cases (w := { carry_out P E p far with noise := noise }) hrest
          (carry_out P E p far).last
      refine ⟨⟨{ carry_out P E p far with noise := noise' },
        (transmit (carry_out P E p far).last { carry_out P E p far with noise := noise }).1, true⟩,
        ?_, ?_⟩
      · rw [gdb_send]
        unfold flush
        rw [hhear, hfar']
        rfl
      · refine ⟨rfl, ⟨noise', rfl⟩, hrest', ?_⟩
        rcases harrive' with hgood' | ⟨hbad', hlt'⟩
        · exact .inl ⟨hgood', Nat.le_trans hle' hle⟩
        · exact .inr ⟨hbad', Nat.lt_of_lt_of_le hlt' hle⟩
    · have htransmit : transmit (send_packet p) far =
          ((transmit (send_packet p) far).1, { far with noise := noise }) := Prod.ext rfl hfar
      have hhear := hear_damaged (P := P) (E := E) hplus hminus hbad htransmit
      obtain ⟨k', hrun, hreplied⟩ := ih (k := ⟨{ far with noise := noise }, [], true⟩)
        ⟨rfl, rfl, hrest⟩ (Nat.lt_of_lt_of_le hlt (Nat.le_of_lt_succ hn))
      refine ⟨k', ?_, hreplied.ack, ?_, hreplied.noise, ?_⟩
      · rw [gdb_send]
        unfold flush
        rw [hhear]
        exact hrun
      · obtain ⟨noise', hfar'⟩ := hreplied.far
        exact ⟨noise', hfar'⟩
      · rcases hreplied.input with ⟨hgood, hle'⟩ | ⟨hbad', hlt'⟩
        · exact .inl ⟨hgood, Nat.le_trans hle' (Nat.le_of_lt hlt)⟩
        · exact .inr ⟨hbad', Nat.lt_trans hlt' hlt⟩

/-- One turn of `gdb_recv` with a good packet. -/
theorem gdb_recv_good (reply : List UInt8) {n : Nat} (hack : k.ack = true)
    (hinput : receive k.input = some (reply, true, [])) :
    gdb_recv P E (n + 1) k = .ok (some (reply, { k with input := [] })) := by
  obtain ⟨r, hrun, -, hreads⟩ := recv_packet_eq k.input
  obtain ⟨size, rfl, -⟩ := hreads reply true [] hinput
  obtain ⟨far, input, ack⟩ := k
  subst hack
  rw [gdb_recv, hrun]
  rfl

/-- One with a damaged packet. -/
theorem gdb_recv_damaged {n : Nat} (hack : k.ack = true) (hinput : Damaged k.input) :
    gdb_recv P E (n + 1) k =
      gdb_recv P E n ⟨(transmit k.far.last k.far).2, (transmit k.far.last k.far).1, true⟩ := by
  obtain ⟨reply, hreply⟩ := hinput
  obtain ⟨r, hrun, -, hreads⟩ := recv_packet_eq k.input
  obtain ⟨size, rfl, -⟩ := hreads reply false [] hreply
  obtain ⟨far, input, ack⟩ := k
  subst hack
  rw [gdb_recv, hrun]
  rfl

/-- `gdb_recv` returns what the stub has replied. -/
theorem gdb_recv_reply {n : Nat} {reply : List UInt8} (hack : k.ack = true)
    (hnoise : Noise k.far.noise)
    (hlast : k.far.last = frame (text (E.tokens reply)))
    (hinput : k.input = k.far.last ∧ k.far.noise.length < n ∨ Damaged k.input ∧
      k.far.noise.length + 1 < n) :
    ∃ noise, gdb_recv P E n k = .ok (some (reply, ⟨{ k.far with noise := noise }, [], true⟩)) ∧
      Noise noise ∧ noise.length ≤ k.far.noise.length := by
  induction n generalizing k with
  | zero => omega
  | succ n ih =>
    rcases hinput with ⟨hgood, -⟩ | ⟨hbad, hn⟩
    · refine ⟨k.far.noise, ?_, hnoise, Nat.le_refl _⟩
      rw [gdb_recv_good reply hack (by rw [hgood, hlast]; exact receive_reply E reply), hack]
    · obtain ⟨noise, hfar, hrest, hle, harrive⟩ := transmit_cases hnoise k.far.last
      obtain ⟨noise', hrun, hnoise', hle'⟩ := ih
        (k := ⟨{ k.far with noise := noise }, (transmit k.far.last k.far).1, true⟩) rfl hrest hlast
        (by
          rcases harrive with hgood | ⟨hbad', hlt⟩
          · exact .inl ⟨hgood, by show noise.length < n; omega⟩
          · exact .inr ⟨hbad', by show noise.length + 1 < n; omega⟩)
      rw [gdb_recv_damaged hack hbad, hfar]
      exact ⟨noise', hrun, hnoise', Nat.le_trans hle' hle⟩

/-- One exchange: the stub carries out the packet once, and the client gets its
    reply. -/
theorem send_recv_eq {p : List UInt8} (hp : Plain p) {n : Nat} (hk : Ready k)
    (hn : k.far.noise.length + 1 < n) :
    ∃ noise, send_recv P E n p k =
        .ok (some
          ((P.answer k.far.stub p).2, ⟨{ carry_out P E p k.far with noise := noise }, [], true⟩)) ∧
      Noise noise ∧ noise.length ≤ k.far.noise.length := by
  obtain ⟨k', hsend, hreplied⟩ := gdb_send_replied (P := P) (E := E) hp hk (Nat.lt_of_succ_lt hn)
  obtain ⟨noise, hfar⟩ := hreplied.far
  have hlast : k'.far.last = frame (text (E.tokens (P.answer k.far.stub p).2)) := by rw [hfar]; rfl
  obtain ⟨noise', hrecv, hnoise', hle'⟩ :=
    gdb_recv_reply (P := P) (n := n) hreplied.ack hreplied.noise hlast
    (by
      rcases hreplied.input with ⟨hgood, hle⟩ | ⟨hbad, hlt⟩
      · exact .inl ⟨hgood, by omega⟩
      · exact .inr ⟨hbad, by omega⟩)
  have hfewer : k'.far.noise.length ≤ k.far.noise.length := by
    rcases hreplied.input with ⟨-, hle⟩ | ⟨-, hlt⟩
    · exact hle
    · exact Nat.le_of_lt hlt
  refine ⟨noise', ?_, hnoise', Nat.le_trans hle' hfewer⟩
  unfold send_recv
  rw [hsend, ok_bind, hrecv, hfar]

end turns

/-! ## Section 5: Runs -/

section runs
variable {σ : Type} (P : Peer σ) (E : Encoder)

/-- Packets one after the other, with their replies. -/
def send_all (n : Nat) : List (List UInt8) → Link σ →
    Except Fault (Option (List (List UInt8) × Link σ))
  | [], k => .ok (some ([], k))
  | p :: ps, k => do
      let r ← send_recv P E n p k
      match r with
      | none => return none
      | some (reply, k) => do
          let r ← send_all n ps k
          return r.map fun r => (reply :: r.1, r.2)

/-- The same with nothing between the client and the stub. -/
def answer_all : List (List UInt8) → σ → List (List UInt8) × σ
  | [], s => ([], s)
  | p :: ps, s =>
      ((P.answer s p).2 :: (answer_all ps (P.answer s p).1).1, (answer_all ps (P.answer s p).1).2)

/-- No packet is lost or carried out twice on the line. -/
theorem send_all_carried_out {ps : List (List UInt8)} (hps : ∀ p ∈ ps, Plain p) {n : Nat}
    {k : Link σ} (hk : Ready k)
    (hn : k.far.noise.length + 1 < n) :
    ∃ k', send_all P E n ps k = .ok (some ((answer_all P ps k.far.stub).1, k')) ∧ Ready k' ∧
      k'.far.stub = (answer_all P ps k.far.stub).2 ∧
      k'.far.log = k.far.log ++ ps.zip (answer_all P ps k.far.stub).1 := by
  induction ps generalizing k with
  | nil => exact ⟨k, rfl, hk, rfl, (List.append_nil _).symm⟩
  | cons p ps ih =>
    obtain ⟨noise, hrun, hnoise, hle⟩ :=
      send_recv_eq (P := P) (E := E) (hps p List.mem_cons_self) hk hn
    obtain ⟨k', hrest, hready, hstub, hlog⟩ := ih (fun q hq => hps q (List.mem_cons_of_mem p hq))
      (k := ⟨{ carry_out P E p k.far with noise := noise }, [], true⟩) ⟨rfl, rfl, hnoise⟩
      (Nat.lt_of_le_of_lt (Nat.succ_le_succ hle) hn)
    refine ⟨k', ?_, hready, hstub, ?_⟩
    · rw [send_all, hrun, ok_bind]
      show (send_all P E n ps _ >>= _) = _
      rw [hrest]
      rfl
    · rw [hlog]
      show k.far.log ++ [(p, (P.answer k.far.stub p).2)] ++ _ = _
      rw [List.append_assoc]
      rfl

end runs

/-- A stub that counts its packets and sends them back. -/
def echo : Peer Nat where
  answer s p := (s + 1, p)
  fresh _ _ := 0

/-- `g` with a wrong sum. -/
def bad_g : List UInt8 := Hex.text ['$', 'g', '#', '0', '0']

/-- The first two packets to arrive are damaged, and so is the first reply. -/
def noisy_link : Link Nat where
  far := { stub := 0, log := [], last := [], noise := [some bad_g, some bad_g, none, some bad_g] }
  input := []
  ack := true

theorem send_all_noisy :
    ∃ k', send_all echo plain_encoder 6 [Hex.text ['g'], Hex.text ['G', '0']] noisy_link =
        .ok (some ((answer_all echo [Hex.text ['g'], Hex.text ['G', '0']] noisy_link.far.stub).1,
          k')) ∧
      Ready k' ∧
      k'.far.stub = (answer_all echo [Hex.text ['g'], Hex.text ['G', '0']] noisy_link.far.stub).2 ∧
      k'.far.log = noisy_link.far.log ++ [Hex.text ['g'], Hex.text ['G', '0']].zip
        (answer_all echo [Hex.text ['g'], Hex.text ['G', '0']] noisy_link.far.stub).1 := by
  refine send_all_carried_out echo plain_encoder ?_ ⟨rfl, rfl, ?_⟩ (by decide)
  · intro p hp c hc
    simp only [List.mem_cons, List.not_mem_nil, or_false] at hp
    rcases hp with rfl | rfl
    · rw [List.mem_singleton.mp hc]
      rfl
    · have hpair : c = Hex.ascii 'G' ∨ c = Hex.ascii '0' := by simpa [Hex.text] using hc
      rcases hpair with rfl | rfl <;> rfl
  · intro t ht
    have hbad : t = bad_g := by simpa [noisy_link] using ht
    exact ⟨[Hex.ascii 'g'], by rw [hbad]; rfl⟩

end Nemu.QemuDiff
