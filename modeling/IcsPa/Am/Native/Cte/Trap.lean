import IcsPa.Am.Native.Cte
import IcsPa.Framework.BitCount

/-! # A signal becomes a trap

    Where the interrupted context is put, and what the process is when
    `user_handler` is called.  To take an interrupt uses the bytes below the
    stack pointer that the red zone leaves, and no more of them than a context
    and its alignment need. -/

open CCall

set_option linter.style.nameCheck false

namespace Am.Native.Cte

section trap
variable {ρ A : Type} {E : Env ρ} {s s' : Cpu ρ A}

/-! ## Section 1: Where a context is put -/

/-- The stack pointer of the stack that an interrupt uses. -/
def base (s : Cpu ρ A) : Nat := if __am_in_userspace s.uc.rip s then s.ksp else s.uc.rsp

/-- There is room for a context on the stack. -/
def Room (E : Env ρ) (s : Cpu ρ A) : Prop := sizeof_Context E + 8 < base s ∧ base s < 2 ^ 64

theorem sub64_eq {a b : Nat} (hle : b ≤ a) (hlt : a < 2 ^ 64) : sub64 a b = a - b := by
  unfold sub64
  omega

theorem frame_bounds {rsp : Nat} (hlo : sizeof_Context E + 8 ≤ rsp) (hhi : rsp < 2 ^ 64) :
    frame E rsp + sizeof_Context E ≤ rsp ∧ rsp ≤ frame E rsp + sizeof_Context E + 8 := by
  unfold frame
  rw [sub64_eq (by omega) hhi]
  dsimp only
  split
  · rw [sub64_eq (by omega) (by omega)]
    omega
  · omega

/-- The stack is aligned for the call of `irq_handle`. -/
theorem frame_aligned {rsp : Nat} (hlo : sizeof_Context E + 8 ≤ rsp) (hhi : rsp < 2 ^ 64)
    (hrsp : rsp % 8 = 0) (hsize : E.size % 8 = 0) : (frame E rsp + 8) % 16 = 0 := by
  unfold frame
  rw [sub64_eq (by omega) hhi]
  dsimp only
  unfold sizeof_Context at hlo ⊢
  split
  · rw [sub64_eq (by omega) (by omega)]
    omega
  · omega

theorem put_self (c : Nat) (ctx : Context ρ) (mem : Nat → Option (Context ρ)) :
    put E c ctx mem c = some ctx :=
  if_pos rfl

theorem put_apart {c a : Nat} (hsize : 0 < E.size) (h : a + E.size ≤ c ∨ c + E.size ≤ a)
    (ctx : Context ρ) (mem : Nat → Option (Context ρ)) : put E c ctx mem a = mem a := by
  unfold put
  rw [if_neg (by omega), if_neg (by omega)]

theorem put_some {c a : Nat} {ctx ctx' : Context ρ} {mem : Nat → Option (Context ρ)}
    (h : put E c ctx mem a = some ctx') : ctx' = ctx ∨ mem a = some ctx' := by
  unfold put at h
  split at h
  · exact .inl (Option.some.inj h).symm
  · split at h
    · cases h
    · exact .inr h

theorem put_put (c : Nat) (ctx ctx' : Context ρ) (mem : Nat → Option (Context ρ)) :
    put E c ctx' (put E c ctx mem) = put E c ctx' mem := by
  funext a
  unfold put
  split
  · rfl
  · split
    · rfl
    · rfl

/-! ## Section 2: A signal -/

/-- The context that is saved. -/
def saved (ev : Event) (s : Cpu ρ A) : Context ρ where
  ksp := s.ksp
  vm_head := s.vme.vm_head
  uc := { s.uc with rip := next_rip ev.event s.uc.rip }

/-- The state in which `user_handler` is called. -/
def trapped (E : Env ρ) (ev : Event) (s : Cpu ρ A) : Cpu ρ A :=
  let c := frame E (base s)
  { s with
    ev
    mem := put E c (saved ev s) s.mem
    uc := { s.uc with rip := E.irq_handle, rsp := c, rdi := c, sigmask := intr_sigmask } }

theorem trapped_mem (ev : Event) (s : Cpu ρ A) :
    (trapped E ev s).mem (frame E (base s)) = some (saved ev s) := by
  unfold trapped
  dsimp only
  rw [put_self]

theorem trapped_uc (ev : Event) (s : Cpu ρ A) :
    (trapped E ev s).uc = { s.uc with
      rip := E.irq_handle, rsp := frame E (base s), rdi := frame E (base s)
      sigmask := intr_sigmask } := by
  unfold trapped
  dsimp only

/-- An interrupt that is not safe to handle. -/
def Refused (E : Env ρ) (ev : Event) (s : Cpu ρ A) : Prop :=
  (ev.event = .irq_iodev ∨ ev.event = .irq_timer) ∧ signal_safe E s.uc.rip s = false

theorem setup_stack_traps {ev : Event} (hsafe : ¬ Refused E ev s) :
    ∃ t, setup_stack E ev.event { s with ev } = (t, true) ∧
      irq_handle_enter E t = .ok (trapped E ev s) := by
  refine ⟨_, if_neg hsafe, ?_⟩
  unfold irq_handle_enter
  dsimp only
  rw [put_self]
  dsimp only
  rw [put_put]
  rfl

theorem signal_traps {sig : Sig} {si_code : SegvCode} {si_addr : Nat} {ev : Event}
    (hb : blocked sig s = false) (hev : event_of sig si_code si_addr s = .ok (some ev))
    (hsafe : ¬ Refused E ev s) : signal E sig si_code si_addr s = .ok (trapped E ev s) := by
  obtain ⟨t, hsetup, henter⟩ := setup_stack_traps hsafe
  unfold signal sig_handler
  rw [hb, hev, ok_bind]
  simp only [hsetup, ok_bind, pure_eq_ok, Bool.false_eq_true, if_false, if_true]
  exact henter

/-- A signal waits or is missed, is the way back, or is a trap. -/
theorem signal_cases {sig : Sig} {si_code : SegvCode} {si_addr : Nat}
    (h : signal E sig si_code si_addr s = .ok s') :
    s'.mem = s.mem ∧ s'.vme = s.vme ∨ blocked sig s = false ∧ ∃ ev, s' = trapped E ev s := by
  cases hb : blocked sig s with
  | true =>
    unfold signal at h
    rw [hb, if_pos rfl] at h
    cases h
    exact .inl ⟨rfl, rfl⟩
  | false =>
    cases hev : event_of sig si_code si_addr s with
    | error e =>
      unfold signal sig_handler at h
      rw [hb, hev] at h
      cases h
    | ok ev =>
      cases ev with
      | none =>
        left
        unfold signal sig_handler iret at h
        rw [hb, hev] at h
        cases hmem : s.mem s.uc.rax <;> simp [hmem] at h
        rw [← h]
        exact ⟨rfl, rfl⟩
      | some ev =>
        by_cases hsafe : Refused E ev s
        · left
          have hrefused : setup_stack E ev.event { s with ev } = ({ s with ev }, false) :=
            if_pos hsafe
          unfold signal sig_handler at h
          rw [hb, hev] at h
          simp [hrefused] at h
          rw [← h]
          exact ⟨rfl, rfl⟩
        · right
          rw [signal_traps hb hev hsafe] at h
          cases h
          exact ⟨rfl, ev, rfl⟩

end trap

end Am.Native.Cte
