import IcsPa.Framework.Lockstep
import IcsPa.Nemu.QemuDiff.Line
import Mathlib.Logic.Function.Iterate

/-! # The client over the line

    The functions of `gdb-host.c` and `diff-test.c` exchange packets with the
    stub.  They do the same over a noisy line as with nothing between: every
    packet that they write has only bytes that stand for themselves, so each
    exchange over the line is one of theirs. -/

open CCall Packet

namespace Nemu.QemuDiff

/-! ## Section 1: Two runs that agree -/

section agree
variable {σ τ α β : Type} {R : Conn σ → Conn τ → Prop}

/-- Two calls go wrong in the same way, or they return the same and leave
    states that are related. -/
def Agree (R : Conn σ → Conn τ → Prop) (x : Except Fault (α × Conn σ))
    (y : Except Fault (α × Conn τ)) : Prop :=
  Lockstep (fun a b => a.1 = b.1 ∧ R a.2 b.2) x y

theorem Agree.ok {a : α} {c : Conn σ} {d : Conn τ} (h : R c d) :
    Agree R (.ok (a, c)) (.ok (a, d)) :=
  Lockstep.ok ⟨rfl, h⟩

theorem Agree.bind {x : Except Fault (α × Conn σ)} {y : Except Fault (α × Conn τ)}
    {f : α × Conn σ → Except Fault (β × Conn σ)} {g : α × Conn τ → Except Fault (β × Conn τ)}
    (h : Agree R x y) (hfg : ∀ a c d, R c d → Agree R (f (a, c)) (g (a, d))) :
    Agree R (x >>= f) (y >>= g) := by
  apply Lockstep.bind h
  rintro ⟨a, c⟩ ⟨-, d⟩ ⟨rfl, hR⟩
  exact hfg a c d hR

/-- A step that does not exchange a packet. -/
theorem Agree.bind_left (x : Except Fault β) {f : β → Except Fault (α × Conn σ)}
    {g : β → Except Fault (α × Conn τ)} (hfg : ∀ b, x = .ok b → Agree R (f b) (g b)) :
    Agree R (x >>= f) (x >>= g) :=
  Lockstep.bind_left x hfg

end agree

/-! ## Section 2: The line as a peer -/

section line
variable {σ : Type} (P : Peer σ) (E : Encoder)

/-- `gdb_send` and `gdb_recv` as the exchange of a packet.  Where they do not
    return, the line stays as it went wrong. -/
def over_line : Peer (Except Fault (Link σ)) where
  answer line p :=
    match line >>= fun k => send_recv P E (k.far.noise.length + 2) p k with
    | .ok (some (reply, k)) => (.ok k, reply)
    | .ok none => (.error .assertion, [])
    | .error e => (.error e, [])
  fresh line :=
    match line with
    | .ok k => P.fresh k.far.stub
    | .error _ => fun _ => 0

/-- The same exchanges have taken place, and the line is ready; `before` are
    the packets that the stub had carried out earlier. -/
structure OnLine (before : List (List UInt8 × List UInt8)) (c : Conn σ)
    (d : Conn (Except Fault (Link σ))) : Prop where
  log  : d.log = c.log
  line : ∃ k, d.stub = .ok k ∧ Ready k ∧ k.far.stub = c.stub ∧ k.far.log = before ++ c.log

variable {before : List (List UInt8 × List UInt8)} {c : Conn σ} {d : Conn (Except Fault (Link σ))}

theorem exchange_on_line (h : OnLine before c d) {p : List UInt8} (hp : Plain p) :
    (exchange (over_line P E) p d).2 = (exchange P p c).2 ∧
      OnLine before (exchange P p c).1 (exchange (over_line P E) p d).1 := by
  obtain ⟨hlog, k, hline, hready, hstub, hcarried⟩ := h
  obtain ⟨noise, hrun, hnoise, -⟩ :=
    send_recv_eq (P := P) (E := E) hp (n := k.far.noise.length + 2) hready (Nat.lt_succ_self _)
  have hanswer : (over_line P E).answer d.stub p =
      (.ok ⟨{ carry_out P E p k.far with noise := noise }, [], true⟩, (P.answer c.stub p).2) := by
    unfold over_line
    dsimp only
    rw [hline, ok_bind, hrun, hstub]
  unfold exchange
  rw [hanswer]
  refine ⟨rfl, ?_, ⟨{ carry_out P E p k.far with noise := noise }, [], true⟩, rfl,
    ⟨rfl, rfl, hnoise⟩, ?_, ?_⟩
  · show d.log ++ _ = c.log ++ _
    rw [hlog]
  · show (P.answer k.far.stub p).1 = _
    rw [hstub]
  · show k.far.log ++ [(p, (P.answer k.far.stub p).2)] = before ++ (c.log ++ [_])
    rw [hcarried, hstub, List.append_assoc]

theorem fresh_on_line (h : OnLine before c d) : (over_line P E).fresh d.stub = P.fresh c.stub := by
  obtain ⟨-, k, hline, -, hstub, -⟩ := h
  rw [hline]
  show P.fresh k.far.stub = _
  rw [hstub]

end line

/-! ## Section 3: The packets of the client -/

theorem plain_append {l l' : List UInt8} (h : Plain l) (h' : Plain l') : Plain (l ++ l') := by
  intro c hc
  rcases List.mem_append.mp hc with hc | hc
  · exact h c hc
  · exact h' c hc

theorem plain_digit {d : Nat} (hd : d < 16) : special (Hex.digit d) = false := by
  have hall : ∀ d < 16, special (Hex.digit d) = false := by decide
  exact hall d hd

theorem plain_print (v : Nat) : Plain (Hex.print v) := by
  obtain ⟨ds, hprint, -, hds, -⟩ := Hex.print_digits v
  intro c hc
  rw [hprint] at hc
  obtain ⟨d, hd, rfl⟩ := List.mem_map.mp hc
  exact plain_digit (hds d hd)

theorem plain_text {s : List Char} (h : (s.all fun x => !special (Hex.ascii x)) = true) :
    Plain (Hex.text s) := by
  intro c hc
  obtain ⟨x, hx, rfl⟩ := List.mem_map.mp hc
  simpa using List.all_eq_true.mp h x hx

theorem plain_m_header (dest : UInt32) (len : Int) : Plain (m_header dest len) :=
  plain_append
  (plain_append (plain_append (plain_append (plain_text rfl) (plain_print _)) (plain_text rfl))
    (plain_print _)) (plain_text rfl)

theorem plain_sprintf {size : Nat} {buf s buf' : List UInt8} (hbuf : Plain buf) (hs : Plain s)
    (h : sprintf size buf s = .ok buf') : Plain buf' := by
  unfold sprintf at h
  split at h
  · cases h
    exact plain_append hbuf hs
  · cases h

theorem plain_append_hex {size off len : Nat} {src : CArray UInt8} {buf buf' : List UInt8}
    (hbuf : Plain buf)
    (h : append_hex size src off len buf = .ok buf') : Plain buf' := by
  unfold append_hex at h
  refine foldlM_ok (P := fun _ buf => Plain buf) ?_ hbuf h
  intro done i rest s s' _ hs hstep
  obtain ⟨b, -, hstep⟩ := bind_eq_ok hstep
  refine plain_sprintf hs ?_ hstep
  obtain ⟨hhi, hlo, -⟩ := Hex.byte_halves b
  rw [hex_encode_byte]
  intro c hc
  have hpair : c = Hex.digit (b.toNat / 16) ∨ c = Hex.digit (b.toNat % 16) := by
    simpa [Hex.encode_byte] using hc
  rcases hpair with rfl | rfl
  · exact plain_digit hhi
  · exact plain_digit hlo

theorem plain_c_string {buf : List UInt8} (h : Plain buf) : Plain (c_string buf) :=
  fun c hc => h c (List.takeWhile_subset _ hc)

/-! ## Section 4: The functions of the client -/

section client
variable {σ : Type} (P : Peer σ) (E : Encoder) {before : List (List UInt8 × List UInt8)}
    {c : Conn σ}
  {d : Conn (Except Fault (Link σ))}

theorem small_agrees (h : OnLine before c d) (dest : UInt32) (src : CArray UInt8) (off : Nat)
    (len : Int) :
    Agree (OnLine before) (gdb_memcpy_to_qemu_small P dest src off len c)
      (gdb_memcpy_to_qemu_small (over_line P E) dest src off len d) := by
  unfold gdb_memcpy_to_qemu_small
  refine Agree.bind_left _ fun size _ => Agree.bind_left _ fun buf hbuf =>
    Agree.bind_left _ fun buf' hbuf' => ?_
  have hplain : Plain (c_string buf') := plain_c_string (plain_append_hex
    (plain_sprintf (fun c hc => absurd hc List.not_mem_nil) (plain_m_header dest len) hbuf) hbuf')
  obtain ⟨hreply, hline⟩ := exchange_on_line P E h hplain
  refine Lockstep.ok ⟨?_, hline⟩
  show answered_ok (exchange P (c_string buf') c).2 = answered_ok (exchange _ (c_string buf') d).2
  rw [hreply]

theorem memcpy_loop_agrees (src : CArray UInt8) (n : Nat) (dest : UInt32) (off : Nat) (len : Int)
    (ok : Bool)
    (h : OnLine before c d) :
    Agree (OnLine before) (memcpy_loop P src n dest off len ok c)
      (memcpy_loop (over_line P E) src n dest off len ok d) := by
  induction n generalizing dest off len ok c d with
  | zero => exact Lockstep.error _ .diverges
  | succ n ih =>
    rw [memcpy_loop, memcpy_loop]
    split
    · exact (small_agrees P E h dest src off mtu).bind fun r c d hcd => ih _ _ _ _ hcd
    · exact (small_agrees P E h dest src off len).bind fun r c d hcd => Agree.ok hcd

theorem getregs_agrees (isa : Isa) (r : CArray UInt8) (h : OnLine before c d) :
    Agree (OnLine before) (gdb_getregs P isa r c) (gdb_getregs (over_line P E) isa r d) := by
  obtain ⟨hreply, hline⟩ := exchange_on_line P E h (plain_text (s := ['g']) rfl)
  unfold gdb_getregs
  show Agree _ (_ >>= _) (((List.range (sizeof_regs isa / 4)).foldlM (fun s i => get_word i s)
    (recv_buffer ((over_line P E).fresh d.stub) (exchange (over_line P E) (Hex.text ['g']) d).2,
      r)) >>= _)
  rw [hreply, fresh_on_line P E h]
  exact Agree.bind_left _ fun words _ => Agree.ok hline

theorem setregs_agrees (isa : Isa) (r : CArray UInt8) (h : OnLine before c d) :
    Agree (OnLine before) (gdb_setregs P isa r c) (gdb_setregs (over_line P E) isa r d) := by
  unfold gdb_setregs
  refine Agree.bind_left _ fun size _ => Agree.bind_left _ fun buf hbuf =>
    Agree.bind_left _ fun buf' hbuf' => ?_
  have hplain : Plain (c_string buf') := plain_c_string (plain_append_hex
    (plain_sprintf (fun c hc => absurd hc List.not_mem_nil) (plain_text rfl) hbuf) hbuf')
  obtain ⟨hreply, hline⟩ := exchange_on_line P E h hplain
  refine Lockstep.ok ⟨?_, hline⟩
  show answered_ok (exchange P (c_string buf') c).2 = answered_ok (exchange _ (c_string buf') d).2
  rw [hreply]

theorem qemu_r_on_line (isa : Isa) (h : OnLine before c d) :
    qemu_r (over_line P E) isa d = qemu_r P isa c := by
  unfold qemu_r
  rw [fresh_on_line P E h]

theorem difftest_getregs_agrees (isa : Isa) (r : CArray UInt8) (h : OnLine before c d) :
    Agree (OnLine before) (difftest_getregs P isa r c)
    (difftest_getregs (over_line P E) isa r d) := by
  unfold difftest_getregs
  rw [qemu_r_on_line P E isa h]
  exact (getregs_agrees P E isa _ h).bind fun regs c d hcd => Agree.bind_left _ fun r _ =>
    Agree.ok hcd

end client

/-! ## Section 5: `diff-test.c` -/

section session
variable {σ : Type} (P : Peer σ)

/-- `gdb_si` -/
def gdb_si (c : Conn σ) : Conn σ :=
  (exchange P (Hex.text ['v', 'C', 'o', 'n', 't', ';', 's', ':', '1']) c).1

def difftest_exec (n : Nat) (c : Conn σ) : Conn σ := (gdb_si P)^[n] c

/-- A `size_t` as an `int`. -/
def int_of_size (n : Nat) : Int :=
  if n % 2 ^ 32 < 2 ^ 31 then n % 2 ^ 32 else (n % 2 ^ 32 : Int) - 2 ^ 32

def difftest_memcpy_from_dut (dest : UInt32) (src : CArray UInt8) (n : Nat) (c : Conn σ) :
    Except Fault (Conn σ) := do
  let (ok, c) ← gdb_memcpy_to_qemu P dest src (int_of_size n) c
  cassert ok
  return c

/-- A call of NEMU. -/
inductive Call where
  | memcpy_from_dut (dest : UInt32) (src : CArray UInt8) (n : Nat)
  | getregs (r : CArray UInt8)
  | setregs (r : CArray UInt8)
  | exec (n : Nat)

/-- A call, with the registers that it reads. -/
def Call.run (isa : Isa) : Call → Conn σ → Except Fault (Option (CArray UInt8) × Conn σ)
  | memcpy_from_dut dest src n, c => do
      let c ← difftest_memcpy_from_dut P dest src n c
      return (none, c)
  | getregs r, c => do
      let (r, c) ← difftest_getregs P isa r c
      return (some r, c)
  | setregs r, c => do
      let c ← difftest_setregs P isa r c
      return (none, c)
  | exec n, c => return (none, difftest_exec P n c)

/-- Calls one after the other. -/
def run_calls (isa : Isa) :
    List Call → Conn σ → Except Fault (List (Option (CArray UInt8)) × Conn σ)
  | [], c => .ok ([], c)
  | call :: calls, c => do
      let (r, c) ← call.run P isa c
      let (rs, c) ← run_calls isa calls c
      return (r :: rs, c)

variable (E : Encoder) {before : List (List UInt8 × List UInt8)} {c : Conn σ}
  {d : Conn (Except Fault (Link σ))}

theorem difftest_exec_on_line (n : Nat) (h : OnLine before c d) :
    OnLine before (difftest_exec P n c) (difftest_exec (over_line P E) n d) := by
  induction n with
  | zero => exact h
  | succ n ih =>
    unfold difftest_exec at ih ⊢
    rw [Function.iterate_succ_apply', Function.iterate_succ_apply']
    exact (exchange_on_line P E ih (plain_text rfl)).2

theorem call_agrees (isa : Isa) (call : Call) (h : OnLine before c d) :
    Agree (OnLine before) (call.run P isa c) (call.run (over_line P E) isa d) := by
  cases call with
  | memcpy_from_dut dest src n =>
    have hcopy :=
      memcpy_loop_agrees P E src ((int_of_size n).toNat + 1) dest 0 (int_of_size n) true h
    show Agree _ ((gdb_memcpy_to_qemu P dest src (int_of_size n) c >>= _) >>= _)
      ((gdb_memcpy_to_qemu (over_line P E) dest src (int_of_size n) d >>= _) >>= _)
    rw [bind_assoc, bind_assoc]
    refine hcopy.bind fun ok c d hcd => ?_
    cases ok with
    | false => exact Lockstep.error _ .assertion
    | true => exact Agree.ok hcd
  | getregs r => exact (difftest_getregs_agrees P E isa r h).bind fun r c d hcd => Agree.ok hcd
  | setregs r =>
    show Agree _ ((gdb_getregs P isa (qemu_r P isa c) c >>= _) >>= _)
      ((gdb_getregs (over_line P E) isa (qemu_r (over_line P E) isa d) d >>= _) >>= _)
    rw [bind_assoc, bind_assoc, qemu_r_on_line P E isa h]
    refine (getregs_agrees P E isa _ h).bind fun regs c d hcd => ?_
    show Agree _ ((CArray.memcpy regs 0 r 0 (DIFFTEST_REG_SIZE isa) >>= _) >>= _)
      ((CArray.memcpy regs 0 r 0 (DIFFTEST_REG_SIZE isa) >>= _) >>= _)
    rw [bind_assoc, bind_assoc]
    refine Agree.bind_left _ fun regs _ => ?_
    show Agree _ ((gdb_setregs P isa regs c >>= _) >>= _)
      ((gdb_setregs (over_line P E) isa regs d >>= _) >>= _)
    rw [bind_assoc, bind_assoc]
    exact (setregs_agrees P E isa regs hcd).bind fun ok c d hcd => Agree.ok hcd
  | exec n => exact Agree.ok (difftest_exec_on_line P E n h)

theorem run_calls_agree (isa : Isa) (calls : List Call) (h : OnLine before c d) :
    Agree (OnLine before) (run_calls P isa calls c) (run_calls (over_line P E) isa calls d) := by
  induction calls generalizing c d with
  | nil => exact Agree.ok h
  | cons call calls ih =>
    rw [run_calls, run_calls]
    refine (call_agrees P E isa call h).bind fun r c d hcd => ?_
    exact (ih hcd).bind fun rs c d hcd => Agree.ok hcd

/-- The calls over the line; an exchange that does not return is a fault. -/
def run_line (isa : Isa) (calls : List Call) (k : Link σ) :
    Except Fault (List (Option (CArray UInt8)) × Link σ) := do
  let (rs, d) ← run_calls (over_line P E) isa calls ⟨.ok k, []⟩
  let k ← d.stub
  return (rs, k)

/-- NEMU cannot tell the line from a perfect one, whatever it calls. -/
theorem calls_agree (isa : Isa) (calls : List Call) {k : Link σ} (hk : Ready k) :
    Lockstep (fun x y => x.1 = y.1 ∧ Ready y.2 ∧ y.2.far.stub = x.2.stub ∧
        y.2.far.log = k.far.log ++ x.2.log)
      (run_calls P isa calls ⟨k.far.stub, []⟩) (run_line P E isa calls k) := by
  have hstart : OnLine k.far.log ⟨k.far.stub, []⟩ ⟨.ok k, []⟩ :=
    ⟨rfl, k, rfl, hk, rfl, (List.append_nil _).symm⟩
  rcases run_calls_agree P E isa calls hstart with ⟨e, hrun, hline⟩ | ⟨x, y, hrun, hline, heq, hxy⟩
  · refine .inl ⟨e, hrun, ?_⟩
    unfold run_line
    rw [hline]
    rfl
  · obtain ⟨-, k', hstub, hrest⟩ := hxy
    refine .inr ⟨x, (y.1, k'), hrun, ?_, heq, hrest⟩
    unfold run_line
    rw [hline]
    simp [hstub]

end session

/-- Two calls, with three packets. -/
def three_steps : List Call := [.exec 2, .exec 1]

/-- They go over the noisy line. -/
theorem calls_agree_noisy : ∃ rs k',
    run_line echo plain_encoder .x86 three_steps noisy_link = .ok (rs, k') ∧ Ready k' ∧
      k'.far.stub = 3 ∧ k'.far.log.map Prod.fst =
        List.replicate 3 (Hex.text ['v', 'C', 'o', 'n', 't', ';', 's', ':', '1']) := by
  have hready : Ready noisy_link := by
    refine ⟨rfl, rfl, ?_⟩
    intro t ht
    have hbad : t = bad_g := by simpa [noisy_link] using ht
    exact ⟨[Hex.ascii 'g'], by rw [hbad]; rfl⟩
  rcases calls_agree echo plain_encoder .x86 three_steps hready with
    ⟨e, hfault, -⟩ | ⟨x, ⟨rs, k'⟩, hx, hline, -, hk', hstub, hlog⟩
  · cases hfault
  · obtain rfl := Except.ok.inj hx
    exact ⟨rs, k', hline, hk', hstub, by rw [hlog]; rfl⟩

end Nemu.QemuDiff
