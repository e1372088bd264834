import IcsPa.Nemu.Monitor.Watched

/-! # How far `cpu_exec` runs

    A stopped guest that is continued for `n` instructions should stop after
    the first one that changes a watched value or ends the running state.
    `GuestRun` is the run of the guest on its own, without watchpoints; in it
    `StopsAt` names the instruction.

    `cpu_exec` compares and stores values as `uint32_t`, whatever the size of
    a word is.  `Visible` says when this makes no difference. -/

open CCall Chain

namespace Nemu.Monitor

open Watchpoint Difftest

section cpuexec
variable {M V R Q : Type} (T : Target M V R Q)

/-! ## Section 1: The guest on its own -/

/-- One instruction and the devices after it. -/
def guest_step (s : Mon M V Q) : Except Fault (Mon M V Q) := do
  let s ← exec_once T s
  return update T s

/-- `t 0`, .., `t k` are the states of a guest that `cpu_exec` starts to run. -/
structure GuestRun (s : Mon M V Q) (t : Nat → Mon M V Q) (k : Nat) : Prop where
  start : t 0 = (enter T s).2
  steps : ∀ i < k, guest_step T (t i) = .ok (t (i + 1))

/-- The value of a watched expression in the state `u`. -/
def WatchedValue (s u : Mon M V Q) (p v : Nat) : Prop := Value (guest T u.machine) s.pool p v

/-- Some watched value changes with the instruction after `t i`. -/
def Differs (s : Mon M V Q) (active : List Nat) (t : Nat → Mon M V Q) (i : Nat) : Prop :=
  ∃ p ∈ active, ∃ v w, WatchedValue T s (t i) p v ∧ WatchedValue T s (t (i + 1)) p w ∧ v ≠ w

/-- The instruction after `t i` changes a watched value or leaves the running
    state. -/
def Stops (s : Mon M V Q) (active : List Nat) (t : Nat → Mon M V Q) (i : Nat) : Prop :=
  (t (i + 1)).nemu_state.state ≠ .NEMU_RUNNING ∨ Differs T s active t i

/-- `k` is the number of the first instruction that stops the guest, or `n` if
    none of the first `n` does. -/
structure StopsAt (s : Mon M V Q) (active : List Nat) (t : Nat → Mon M V Q) (n k : Nat) :
    Prop where
  le    : k ≤ n
  first : ∀ i, i + 1 < k → ¬ Stops T s active t i
  stop  : k = n ∨ ∃ i, k = i + 1 ∧ Stops T s active t i

/-- There is such a number for every run. -/
theorem exists_stopsAt (s : Mon M V Q) (active : List Nat) (t : Nat → Mon M V Q) (n : Nat) :
    ∃ k, StopsAt T s active t n k := by
  classical
  by_cases h : ∃ i, i < n ∧ Stops T s active t i
  · obtain ⟨hlt, hstop⟩ := Nat.find_spec h
    refine ⟨Nat.find h + 1, hlt, fun i hi hstops => ?_, Or.inr ⟨_, rfl, hstop⟩⟩
    exact Nat.find_min h (by omega) ⟨by omega, hstops⟩
  · refine ⟨n, le_rfl, fun i hi hstops => ?_, Or.inl rfl⟩
    exact h ⟨i, by omega, hstops⟩

/-- What is promised of `cpu_exec` when it returns `s'`: it has executed the
    `k` instructions up to the state `u`, and every active watchpoint stores
    the value of its expression. -/
structure ExecutedTo (s : Mon M V Q) (active : List Nat) (u : Mon M V Q) (k : Nat)
    (s' : Mon M V Q) : Prop where
  machine : s'.machine = u.machine
  count   : to_uint64 s'.g_nr_guest_instr = to_uint64 (s.g_nr_guest_instr + k)
  stored  : ∀ p ∈ active, ∃ v, Value (guest T s'.machine) s'.pool p v ∧
    (s'.pool.wp_pool p).watch_value = v

/-- `uint32_t` does not hide anything: the values in the last state fit, and
    if only watched values stop the guest, one of them changes in its low 32
    bits. -/
structure Visible (s : Mon M V Q) (active : List Nat) (t : Nat → Mon M V Q) (n k : Nat) :
    Prop where
  fits : ∀ p ∈ active, ∀ v, WatchedValue T s (t k) p v → v < 0x100000000
  seen : k = n ∨ (t k).nemu_state.state ≠ .NEMU_RUNNING ∨
    ∃ i, k = i + 1 ∧ ∃ p ∈ active, ∃ v w, WatchedValue T s (t i) p v ∧
      WatchedValue T s (t k) p w ∧ to_uint32 v ≠ to_uint32 w

variable {T}

/-! ## Section 2: One iteration -/

/-- The pool of `u` is replaced. -/
def with_pool (u : Mon M V Q) (pool : WpPool) : Mon M V Q := { u with pool := pool }

theorem exec_once_with_pool {u u' : Mon M V Q} (pool : WpPool) (h : exec_once T u = .ok u') :
    exec_once T (with_pool u pool) = .ok (with_pool u' pool) := by
  obtain ⟨x, hx, h⟩ := bind_eq_ok h
  obtain ⟨driver, hd, h⟩ := bind_eq_ok h
  cases h
  unfold exec_once
  rw [show T.isa_exec_once (with_pool u pool).machine (with_pool u pool).devices = .ok x from hx,
    ok_bind, show difftest T (instr T (with_pool u pool) x) (with_pool u pool).driver = .ok driver
      from hd, ok_bind]
  rfl

theorem update_with_pool (u : Mon M V Q) (pool : WpPool) :
    update T (with_pool u pool) = with_pool (update T u) pool := by
  have hst : (with_pool u pool).nemu_state = u.nemu_state := rfl
  have hdev : (with_pool u pool).devices = u.devices := rfl
  unfold update
  rw [hst, hdev]
  cases T.HAS_IOE with
  | false => rfl
  | true =>
    obtain ⟨devices, quit⟩ := T.device_update u.nemu_state.state u.devices
    cases quit <;> rfl

/-- What the loop of `cpu_exec` knows of the pool in the state `u`. -/
structure PoolAt (T : Target M V R Q) (s : Mon M V Q) (active free : List Nat) (u : Mon M V Q)
    (pool : WpPool) : Prop where
  inv   : WpInv pool active free
  exprs : ∀ p, (pool.wp_pool p).watch_expr = (s.pool.wp_pool p).watch_expr
  fresh : UpToDate (guest T u.machine) pool active

/-- Some stored value is not the one in the state `u`. -/
def Outdated (T : Target M V R Q) (active : List Nat) (u : Mon M V Q) (pool : WpPool) : Prop :=
  ∃ p ∈ active, Changed (guest T u.machine) pool p

/-- Step lemma: the iteration follows the guest, and stops it if a stored
    value is outdated. -/
theorem iteration_follows {s u u' : Mon M V Q} {active free : List Nat} {pool : WpPool}
    (hpool : PoolAt T s active free u pool) (hstep : guest_step T u = .ok u')
    (hval : ∀ p ∈ active, ∃ v, WatchedValue T s u' p v) :
    ∃ s', iteration T (with_pool u pool) = .ok s' ∧ s'.machine = u'.machine ∧
      s'.g_nr_guest_instr = u'.g_nr_guest_instr ∧ PoolAt T s active free u' s'.pool ∧
      (Outdated T active u' pool → s'.nemu_state.state ≠ .NEMU_RUNNING) ∧
      (¬ Outdated T active u' pool → s' = with_pool u' s'.pool) := by
  obtain ⟨u₁, hexec, hupdate⟩ := bind_eq_ok hstep
  cases hupdate
  have hexec' := exec_once_with_pool pool hexec
  obtain ⟨hm, -, hcount⟩ := update_frame T u₁
  have hval' : ∀ p ∈ active, ∃ v, Value (guest T u₁.machine) pool p v := by
    intro p hp
    obtain ⟨v, hv⟩ := hval p hp
    rw [← hm]
    exact ⟨v, (Value.congr (hpool.exprs p)).mpr hv⟩
  -- The check runs over all active nodes.
  obtain ⟨⟨pool', changed⟩, hcheck⟩ : ∃ r, check_wp_changed (guest T u₁.machine) pool = .ok r := by
    rw [check_wp_changed_eq hpool.inv]
    exact foldlM_check_wp_ok hval'
  obtain ⟨hinv', hre, hhit⟩ := check_wp_changed_spec hpool.inv hcheck
  have hpool' : PoolAt T s active free (update T u₁) pool' := by
    refine ⟨hinv', fun p => (hre.exprs p).trans (hpool.exprs p), ?_⟩
    rw [hm]
    exact hre.upToDate
  have hout : changed = true ↔ Outdated T active (update T u₁) pool := by
    unfold Outdated
    rw [hm, hhit]
    constructor
    · rintro ⟨l, hlinks, hp⟩
      rw [links_unique hlinks hpool.inv.active_links] at hp
      exact hp
    · intro hp
      exact ⟨active, hpool.inv.active_links, hp⟩
  have hrun : iteration T (with_pool u pool) = .ok (update T
      (if changed then (with_pool u₁ pool').set_state .NEMU_STOP else with_pool u₁ pool')) := by
    unfold iteration watch
    rw [hexec', ok_bind, show check_wp_changed (guest T (with_pool u₁ pool).machine)
      (with_pool u₁ pool).pool = .ok (pool', changed) from hcheck]
    rfl
  refine ⟨_, hrun, ?_⟩
  cases changed with
  | false =>
    have hno : ¬ Outdated T active (update T u₁) pool := fun h => by simpa using hout.mpr h
    rw [if_neg (by simp), update_with_pool]
    exact ⟨rfl, rfl, hpool', fun h => absurd h hno, fun _ => rfl⟩
  | true =>
    have hyes : Outdated T active (update T u₁) pool := hout.mp rfl
    rw [if_pos rfl]
    obtain ⟨hm', hp', hcount'⟩ := update_frame T ((with_pool u₁ pool').set_state .NEMU_STOP)
    refine ⟨hm'.trans hm.symm, hcount'.trans hcount.symm, ?_, fun _ => ?_, fun h => absurd hyes h⟩
    · rw [hp']; exact hpool'
    · unfold update
      split
      · dsimp only
        split
        · simp
        · show (RunState.NEMU_STOP) ≠ .NEMU_RUNNING
          simp
      · show (RunState.NEMU_STOP) ≠ .NEMU_RUNNING
        simp

/-- A stored value is outdated if and only if the low 32 bits have changed. -/
theorem outdated_iff {s u u' : Mon M V Q} {active free : List Nat} {pool : WpPool}
    (hpool : PoolAt T s active free u pool)
    (hval : ∀ p ∈ active, ∃ v, WatchedValue T s u' p v) :
    Outdated T active u' pool ↔ ∃ p ∈ active, ∃ v w, WatchedValue T s u p v ∧
      WatchedValue T s u' p w ∧ to_uint32 v ≠ to_uint32 w := by
  refine exists_congr fun p => and_congr_right fun hp => ?_
  obtain ⟨v, hv, hstored⟩ := hpool.fresh p hp
  obtain ⟨w, hw⟩ := hval p hp
  have hw' := (Value.congr (g := guest T u'.machine) (v := w) (hpool.exprs p)).mpr hw
  have hv' := (Value.congr (g := guest T u.machine) (v := v) (hpool.exprs p)).mp hv
  rw [changed_iff hw', hstored]
  constructor
  · intro hne
    exact ⟨v, w, hv', hw, fun heq => hne heq.symm⟩
  · rintro ⟨v', w', hv'', hw'', hne⟩
    rw [hv''.unique hv', hw''.unique hw] at hne
    exact fun heq => hne heq.symm

/-! ## Section 3: The loop -/

variable {s : Mon M V Q} {active free : List Nat} {t : Nat → Mon M V Q} {n k : Nat}

theorem iteration_count {s s' : Mon M V Q} (h : iteration T s = .ok s') :
    to_uint64 s'.g_nr_guest_instr = to_uint64 (s.g_nr_guest_instr + 1) := by
  obtain ⟨s₁, s₂, hexec, hwatch, rfl⟩ := iteration_cases h
  obtain ⟨-, -, hcount⟩ := update_frame T s₂
  have hwatch' : s₂.g_nr_guest_instr = s₁.g_nr_guest_instr := by
    obtain ⟨⟨pool, changed⟩, -, h⟩ := bind_eq_ok hwatch
    cases changed <;> cases h <;> rfl
  obtain ⟨x, -, hexec⟩ := bind_eq_ok hexec
  obtain ⟨driver, -, hexec⟩ := bind_eq_ok hexec
  cases hexec
  rw [hcount, hwatch']
  exact Nat.mod_mod _ _

/-- The loop executes at least one instruction and at most `n`. -/
theorem exec_loop_count {n : Nat} {s s' : Mon M V Q} (h : exec_loop T n s = .ok s') :
    ∃ j ≤ n, (0 < n → 0 < j) ∧
      to_uint64 s'.g_nr_guest_instr = to_uint64 (s.g_nr_guest_instr + j) := by
  induction n generalizing s with
  | zero => cases h; exact ⟨0, le_rfl, by simp, rfl⟩
  | succ n ih =>
    obtain ⟨s₁, hiter, h⟩ := bind_eq_ok h
    have hfirst := iteration_count hiter
    split at h
    · cases h
      exact ⟨1, by omega, fun _ => by omega, hfirst⟩
    · obtain ⟨j, hj, -, hcount⟩ := ih h
      refine ⟨j + 1, by omega, fun _ => by omega, ?_⟩
      unfold to_uint64 at hfirst hcount ⊢
      omega

theorem guestRun_count (h : GuestRun T s t k) {i : Nat} (hi : i ≤ k) :
    to_uint64 (t i).g_nr_guest_instr = to_uint64 (s.g_nr_guest_instr + i) := by
  induction i with
  | zero => rw [h.start]; rfl
  | succ i ih =>
    have hprev := ih (by omega)
    obtain ⟨u, hexec, hupdate⟩ := bind_eq_ok (h.steps i (by omega))
    obtain ⟨x, -, hexec⟩ := bind_eq_ok hexec
    obtain ⟨driver, -, hexec⟩ := bind_eq_ok hexec
    have hnext : (t (i + 1)).g_nr_guest_instr = u.g_nr_guest_instr := by
      rw [← Except.ok.inj hupdate]
      exact (update_frame T u).2.2
    cases hexec
    rw [hnext]
    show to_uint64 (to_uint64 ((t i).g_nr_guest_instr + 1)) = _
    unfold to_uint64 at hprev ⊢
    omega

/-- Loop lemma: before the instruction that stops the guest, the loop follows
    the run of the guest. -/
theorem exec_loop_follows (hrun : GuestRun T s t k)
    (hval : ∀ i ≤ k, ∀ p ∈ active, ∃ v, WatchedValue T s (t i) p v)
    (hk : StopsAt T s active t n k) {pool₀ : WpPool} (hpool₀ : PoolAt T s active free (t 0) pool₀)
    {i : Nat} (hi : i < k) :
    ∃ pool, PoolAt T s active free (t i) pool ∧
      exec_loop T n (with_pool (t 0) pool₀) = exec_loop T (n - i) (with_pool (t i) pool) := by
  induction i with
  | zero => exact ⟨pool₀, hpool₀, rfl⟩
  | succ i ih =>
    obtain ⟨pool, hpool, heq⟩ := ih (by omega)
    obtain ⟨s', hiter, -, -, hpool', -, hfollow⟩ :=
      iteration_follows hpool (hrun.steps i (by omega)) (hval (i + 1) (by omega))
    have hno := hk.first i hi
    -- No value changes at all, so none changes in its low 32 bits.
    have hfresh : ¬ Outdated T active (t (i + 1)) pool := by
      rw [outdated_iff hpool (hval (i + 1) (by omega))]
      rintro ⟨p, hp, v, w, hv, hw, hne⟩
      exact hno (Or.inr ⟨p, hp, v, w, hv, hw, fun hvw => hne (by rw [hvw])⟩)
    have hs' := hfollow hfresh
    have hrunning : s'.nemu_state.state = .NEMU_RUNNING := by
      rw [hs']
      by_contra hne
      exact hno (Or.inl hne)
    refine ⟨s'.pool, hpool', ?_⟩
    have hn : n - i = (n - (i + 1)) + 1 := by have := hk.le; omega
    rw [heq, hn, exec_loop, hiter, ok_bind, if_neg (by simp [hrunning]), ← hs']

/-- The loop as a whole: it stops after `k` instructions if it sees the
    reason, and otherwise goes on. -/
theorem exec_loop_stops (hrun : GuestRun T s t k)
    (hval : ∀ i ≤ k, ∀ p ∈ active, ∃ v, WatchedValue T s (t i) p v)
    (hk : StopsAt T s active t n k) {pool₀ : WpPool}
    (hpool₀ : PoolAt T s active free (t 0) pool₀) :
    ∃ s', PoolAt T s active free (t k) s'.pool ∧ s'.machine = (t k).machine ∧
      s'.g_nr_guest_instr = (t k).g_nr_guest_instr ∧
      (exec_loop T n (with_pool (t 0) pool₀) = .ok s' ∧
          (k = n ∨ (t k).nemu_state.state ≠ .NEMU_RUNNING ∨
            ∃ i, k = i + 1 ∧ ∃ p ∈ active, ∃ v w, WatchedValue T s (t i) p v ∧
              WatchedValue T s (t k) p w ∧ to_uint32 v ≠ to_uint32 w) ∨
        exec_loop T n (with_pool (t 0) pool₀) = exec_loop T (n - k) s' ∧ k < n ∧
          (t k).nemu_state.state = .NEMU_RUNNING ∧
          ∀ i, k = i + 1 → ¬ ∃ p ∈ active, ∃ v w, WatchedValue T s (t i) p v ∧
            WatchedValue T s (t k) p w ∧ to_uint32 v ≠ to_uint32 w) := by
  cases k with
  | zero =>
    -- Only a call for no instruction stops before the first one.
    have hn : n = 0 := by
      rcases hk.stop with h | ⟨i, h, -⟩
      · exact h.symm
      · omega
    subst hn
    exact ⟨with_pool (t 0) pool₀, hpool₀, rfl, rfl, Or.inl ⟨rfl, Or.inl rfl⟩⟩
  | succ k =>
    obtain ⟨pool, hpool, heq⟩ := exec_loop_follows hrun hval hk hpool₀ (Nat.lt_succ_self k)
    have hval' := hval (k + 1) le_rfl
    obtain ⟨s', hiter, hm, hcount, hpool', hout, hfollow⟩ :=
      iteration_follows hpool (hrun.steps k (Nat.lt_succ_self k)) hval'
    have hn : n - k = (n - (k + 1)) + 1 := by have := hk.le; omega
    rw [heq, hn, exec_loop, hiter, ok_bind]
    rw [outdated_iff hpool hval'] at hout hfollow
    refine ⟨s', hpool', hm, hcount, ?_⟩
    by_cases hlow : ∃ p ∈ active, ∃ v w, WatchedValue T s (t k) p v ∧
        WatchedValue T s (t (k + 1)) p w ∧ to_uint32 v ≠ to_uint32 w
    · rw [if_pos (hout hlow)]
      exact Or.inl ⟨rfl, Or.inr (Or.inr ⟨k, rfl, hlow⟩)⟩
    · have hst : s'.nemu_state = (t (k + 1)).nemu_state := by rw [hfollow hlow]; rfl
      rw [hst]
      by_cases hleft : (t (k + 1)).nemu_state.state = .NEMU_RUNNING
      · rw [if_neg (by simp [hleft])]
        by_cases hkn : k + 1 = n
        · rw [hkn, Nat.sub_self]
          exact Or.inl ⟨rfl, Or.inl rfl⟩
        · refine Or.inr ⟨rfl, by have := hk.le; omega, hleft, ?_⟩
          intro i hi
          obtain rfl : k = i := by omega
          exact hlow
      · rw [if_pos hleft]
        exact Or.inl ⟨rfl, Or.inr (Or.inl hleft)⟩

/-! ## Section 4: `cpu_exec` -/

/-- A stored value is the value itself if and only if that fits. -/
theorem stored_iff {u : Mon M V Q} {pool : WpPool} (hpool : PoolAt T s active free u pool) :
    (∀ p ∈ active, ∃ v, Value (guest T u.machine) pool p v ∧ (pool.wp_pool p).watch_value = v) ↔
      ∀ p ∈ active, ∀ v, WatchedValue T s u p v → v < 0x100000000 := by
  refine forall₂_congr fun p hp => ?_
  obtain ⟨v, hv, hstored⟩ := hpool.fresh p hp
  have hlow : to_uint32 v < 0x100000000 := Nat.mod_lt _ (by omega)
  constructor
  · rintro ⟨w, hw, heq⟩ w' hw'
    have hw'' := (Value.congr (g := guest T u.machine) (v := w') (hpool.exprs p)).mpr hw'
    rw [hw''.unique hw, ← heq, hstored]
    exact hlow
  · intro hfit
    have hv' := (Value.congr (g := guest T u.machine) (v := v) (hpool.exprs p)).mp hv
    refine ⟨v, hv, hstored.trans (Nat.mod_eq_of_lt (hfit v hv'))⟩

/-- `cpu_exec` of a guest that is not ended is its loop. -/
theorem cpu_exec_eq_loop (h : ended s.nemu_state = false) :
    cpu_exec T n s = (exec_loop T n (enter T s).2).map (leave T (enter T s).1) := by
  unfold cpu_exec
  rw [if_neg (by simp [h])]
  cases hloop : exec_loop T n (enter T s).2 with
  | error e =>
    show (exec_loop T n (enter T s).2 >>= _) = _
    rw [hloop]; rfl
  | ok s' =>
    show (exec_loop T n (enter T s).2 >>= _) = _
    rw [hloop]; rfl

/-- In a state that keeps the invariant, `cpu_exec` meets its promise if and
    only if `uint32_t` hides nothing. -/
theorem cpu_exec_executedTo_iff (hs : Watched T s) (hstop : s.nemu_state.state = .NEMU_STOP)
    (hactive : Links s.pool.next s.pool.head active) (hn : n < 0x10000000000000000)
    (hrun : GuestRun T s t k)
    (hval : ∀ i ≤ k, ∀ p ∈ active, ∃ v, WatchedValue T s (t i) p v)
    (hk : StopsAt T s active t n k) :
    (∃ s', cpu_exec T n s = .ok s' ∧ ExecutedTo T s active (t k) k s') ↔
      Visible T s active t n k := by
  obtain ⟨active', free, hinv, hup⟩ := hs
  obtain rfl := links_unique hactive hinv.active_links
  have hended : ended s.nemu_state = false := by simp [ended, hstop]
  have hpool₀ : PoolAt T s active free (t 0) s.pool := by
    refine ⟨hinv, fun _ => rfl, ?_⟩
    rw [hrun.start]
    exact hup
  have hstart : with_pool (t 0) s.pool = (enter T s).2 := by rw [hrun.start]; rfl
  obtain ⟨s', hpool, hm, hcount, hloop⟩ := exec_loop_stops hrun hval hk hpool₀
  rw [hstart] at hloop
  have hkcount := guestRun_count hrun le_rfl
  rw [cpu_exec_eq_loop hended]
  -- Either the loop stops where it should, or it has not seen the change.
  rcases hloop with ⟨hloop, hseen⟩ | ⟨hloop, hkn, hrunning, hhidden⟩
  · rw [hloop]
    obtain ⟨hm', hp', hcount'⟩ := leave_frame T (enter T s).1 s'
    have hstored := stored_iff hpool
    constructor
    · rintro ⟨s'', heq, hto⟩
      obtain rfl := Except.ok.inj heq
      refine ⟨hstored.mp ?_, hseen⟩
      have hlast := hto.stored
      rw [hp', hm', hm] at hlast
      exact hlast
    · intro hvis
      refine ⟨_, rfl, hm'.trans hm, ?_, ?_⟩
      · rw [hcount', hcount]; exact hkcount
      · rw [hp', hm', hm]
        exact hstored.mpr hvis.fits
  · -- The loop goes on, so more than `k` instructions are executed.
    rw [hloop]
    constructor
    -- `ExecutedTo` counts `k` instructions, and the loop executes more.
    · rintro ⟨s'', heq, hto⟩
      cases hrest : exec_loop T (n - k) s' with
      | error e => rw [hrest] at heq; cases heq
      | ok last =>
        rw [hrest] at heq
        obtain rfl := Except.ok.inj heq
        obtain ⟨j, hj, hpos, hmore⟩ := exec_loop_count hrest
        have hpos' := hpos (by omega)
        have htotal := hto.count
        rw [(leave_frame T (enter T s).1 last).2.2] at htotal
        rw [hcount] at hmore
        unfold to_uint64 at hkcount hmore htotal
        omega
    · intro hvis
      rcases hvis.seen with h | h | ⟨i, h, hlow⟩
      · omega
      · exact absurd hrunning h
      · exact absurd hlow (hhidden i h)

/-- A call of `cpu_exec` is a run of steps. -/
theorem Reachable.exec_loop {n i : Nat} {s s' : Mon M V Q} (hs : Reachable T (.running n i s))
    (h : exec_loop T n s = .ok s') : Reachable T (.running 0 i s') := by
  induction n generalizing s with
  | zero => cases h; exact hs
  | succ n ih =>
    obtain ⟨s₁, hiter, h⟩ := bind_eq_ok h
    have hnext : Monitor.step T .iteration (.running (n + 1) i s) =
        .ok (some (.running (if s₁.nemu_state.state ≠ .NEMU_RUNNING then 0 else n) i s₁)) := by
      show (iteration T s >>= _) = _
      rw [hiter]; rfl
    have hs₁ := hs.step hnext
    split at h
    · rename_i hleft
      cases h
      rwa [if_pos hleft] at hs₁
    · rename_i hleft
      rw [if_neg hleft] at hs₁
      exact ih hs₁ h

theorem Reachable.cpu_exec {n : Nat} {s s' : Mon M V Q} (hs : Reachable T (.prompt s))
    (h : cpu_exec T n (clear T s) = .ok s') : Reachable T (.prompt s') := by
  cases hended : ended (clear T s).nemu_state with
  | true =>
    unfold Monitor.cpu_exec at h
    rw [if_pos hended] at h
    cases h
    refine hs.step (l := .cpu_exec n) ?_
    simp only [Monitor.step, hended, if_true]
  | false =>
    rw [cpu_exec_eq_loop hended] at h
    cases hloop : Monitor.exec_loop T n (enter T (clear T s)).2 with
    | error e => rw [hloop] at h; cases h
    | ok s₁ =>
      rw [hloop] at h
      obtain rfl := Except.ok.inj h
      have hstart : Reachable T (.running n (enter T (clear T s)).1 (enter T (clear T s)).2) := by
        refine hs.step (l := .cpu_exec n) ?_
        simp only [Monitor.step, hended]
        rfl
      exact (hstart.exec_loop hloop).step (l := .leave) rfl

/-! ## Section 5: Where `uint32_t` is enough -/

/-- With 4-byte words every value fits, so nothing is hidden. -/
theorem visible_of_word32 (hword : T.isa.wordBytes = 4)
    (hregs : ∀ m, (guest T m).WordRegs) (hk : StopsAt T s active t n k) :
    Visible T s active t n k := by
  have hfit : ∀ u p v, WatchedValue T s u p v → v < 0x100000000 := by
    intro u p v hv
    obtain ⟨e, -, he⟩ := hv
    have hlt : v < T.isa.wordSize := Expr.expr_lt (hregs u.machine) he
    unfold Isa.wordSize at hlt
    rw [hword] at hlt
    exact hlt
  refine ⟨fun p _ v hv => hfit (t k) p v hv, ?_⟩
  rcases hk.stop with hkn | ⟨i, rfl, hleft | ⟨p, hp, v, w, hv, hw, hne⟩⟩
  · exact Or.inl hkn
  · exact Or.inr (Or.inl hleft)
  · refine Or.inr (Or.inr ⟨i, rfl, p, hp, v, w, hv, hw, fun heq => hne ?_⟩)
    have hv' := hfit _ _ _ hv
    have hw' := hfit _ _ _ hw
    unfold to_uint32 at heq
    omega

/-- In every reachable stopped state, `cpu_exec(n)` executes the instructions
    up to the first one that changes a watched value or ends the running
    state and leaves every stored value up to date, if and only if the values
    fit in `uint32_t` and the change is in their low 32 bits. -/
theorem cpu_exec_stops_iff (hs : Reachable T (.prompt s))
    (hstop : s.nemu_state.state = .NEMU_STOP)
    (hactive : Links s.pool.next s.pool.head active) (hn : n < 0x10000000000000000)
    (hrun : GuestRun T s t k)
    (hval : ∀ i ≤ k, ∀ p ∈ active, ∃ v, WatchedValue T s (t i) p v)
    (hk : StopsAt T s active t n k) :
    (∃ s', cpu_exec T n s = .ok s' ∧ ExecutedTo T s active (t k) k s') ↔
      Visible T s active t n k :=
  cpu_exec_executedTo_iff hs.watched hstop hactive hn hrun hval hk

end cpuexec

/-! ### A change in the high half of a word -/

/-- A guest that counts in `$pc`; its first instruction also writes 1 to the
    byte at address 4. -/
def counter (isa : Isa) : Target Nat Unit Nat Nat where
  isa := isa
  DIFF_TEST := false
  HAS_IOE := false
  pc pc := pc
  cpu pc := pc
  pmem pc a := if a = 4 ∧ 0 < pc then 1 else 0
  isa_reg_str2val pc name := if name = ['p', 'c'] then some pc else none
  isa_exec_once pc _ := .ok ⟨pc + 1, (), none, []⟩
  ref := pcRef
  device_update _ _ := ((), false)
  sdl_clear_event_queue _ := ()
  gettimeofday _ := (0, 0)

/-- The prompt that a step leads to. -/
def to_prompt {M V Q : Type} : Except Fault (Option (Conf M V Q)) → Option (Mon M V Q)
  | .ok (some (.prompt s)) => some s
  | _ => none

theorem to_prompt_eq {M V Q : Type} {r : Except Fault (Option (Conf M V Q))} {s : Mon M V Q}
    (h : to_prompt r = some s) : r = .ok (some (.prompt s)) := by
  unfold to_prompt at h
  split at h
  · cases h; rfl
  · cases h

/-- The session after one `w`. -/
def after_w (isa : Isa) (e : List Char) : Mon Nat Unit Nat :=
  (to_prompt (step (counter isa) (.cmd_w (some e)) (.prompt (init 0 () 0)))).getD (init 0 () 0)

theorem after_w_reachable {isa : Isa} {e : List Char}
    (h : (to_prompt (step (counter isa) (.cmd_w (some e)) (.prompt (init 0 () 0)))).isSome) :
    Reachable (counter isa) (.prompt (after_w isa e)) := by
  obtain ⟨s, hs⟩ := Option.isSome_iff_exists.mp h
  unfold after_w
  rw [hs]
  exact (Reachable.init 0 () 0).step (to_prompt_eq hs)

/-- The states of the guest before and after its first instruction. -/
def first_states (isa : Isa) (s : Mon Nat Unit Nat) (i : Nat) : Mon Nat Unit Nat :=
  { (enter (counter isa) s).2 with machine := i, g_nr_guest_instr := i }

theorem first_states_run {isa : Isa} {s : Mon Nat Unit Nat} (hm : s.machine = 0)
    (hcount : s.g_nr_guest_instr = 0) : GuestRun (counter isa) s (first_states isa s) 1 where
  start := by
    unfold first_states enter
    simp only [Mon.set_state_machine, Mon.set_state_g_nr_guest_instr, hm, hcount]
  steps := by
    intro i hi
    obtain rfl : i = 0 := by omega
    rfl

/-- With `w $pc`, `cpu_exec(5)` executes one instruction. -/
theorem cpu_exec_stops_at_pc :
    let s := after_w .x86 ['$', 'p', 'c']
    ∃ s', cpu_exec (counter .x86) 5 s = .ok s' ∧
      ExecutedTo (counter .x86) s [0] (first_states .x86 s 1) 1 s' := by
  intro s
  let t := first_states .x86 s
  have hval : ∀ i, WatchedValue (counter .x86) s (t i) 0 i := fun i =>
    ⟨['$', 'p', 'c'], by decide +kernel, rfl⟩
  have hs : Reachable (counter .x86) (.prompt s) := after_w_reachable (by decide +kernel)
  have hactive : Links s.pool.next s.pool.head [0] :=
    links_cons.mpr ⟨by decide +kernel, links_nil.mpr (by decide +kernel)⟩
  have hstop : StopsAt (counter .x86) s [0] t 5 1 :=
    ⟨by decide, fun i hi => by omega,
      Or.inr ⟨0, rfl, Or.inr ⟨0, by simp, 0, 1, hval 0, hval 1, by decide⟩⟩⟩
  refine (cpu_exec_stops_iff hs (by decide +kernel) hactive (by decide)
    (first_states_run (by decide +kernel) (by decide +kernel)) ?_ hstop).mpr ⟨?_, ?_⟩
  · intro i _ p hp
    obtain rfl : p = 0 := by simpa using hp
    exact ⟨i, hval i⟩
  · intro p hp v hv
    obtain rfl : p = 0 := by simpa using hp
    rw [hv.unique (hval 1)]
    decide
  · exact Or.inr (Or.inr ⟨0, rfl, 0, by simp, 0, 1, hval 0, hval 1, by decide⟩)

/-- On riscv64 with `w *0x0`, the first instruction changes the value from 0
    to 2^32; `cpu_exec(5)` does not notice and runs on. -/
theorem cpu_exec_misses_high_half :
    let s := after_w .riscv64 ['*', '0', 'x', '0']
    let t := first_states .riscv64 s
    Reachable (counter .riscv64) (.prompt s) ∧ s.nemu_state.state = .NEMU_STOP ∧
      Links s.pool.next s.pool.head [0] ∧ GuestRun (counter .riscv64) s t 1 ∧
      WatchedValue (counter .riscv64) s (t 0) 0 0 ∧
      WatchedValue (counter .riscv64) s (t 1) 0 0x100000000 ∧
      StopsAt (counter .riscv64) s [0] t 5 1 ∧
      ¬ ∃ s', cpu_exec (counter .riscv64) 5 s = .ok s' ∧
        ExecutedTo (counter .riscv64) s [0] (t 1) 1 s' := by
  intro s t
  have hs : Reachable (counter .riscv64) (.prompt s) := after_w_reachable (by decide +kernel)
  have hactive : Links s.pool.next s.pool.head [0] :=
    links_cons.mpr ⟨by decide +kernel, links_nil.mpr (by decide +kernel)⟩
  have hrun : GuestRun (counter .riscv64) s t 1 :=
    first_states_run (by decide +kernel) (by decide +kernel)
  have hval₀ : WatchedValue (counter .riscv64) s (t 0) 0 0 :=
    ⟨['*', '0', 'x', '0'], by decide +kernel, by decide +kernel⟩
  have hval₁ : WatchedValue (counter .riscv64) s (t 1) 0 0x100000000 :=
    ⟨['*', '0', 'x', '0'], by decide +kernel, by decide +kernel⟩
  -- The high half of the word changes in the first instruction.
  have hstop : StopsAt (counter .riscv64) s [0] t 5 1 :=
    ⟨by decide, fun i hi => by omega,
      Or.inr ⟨0, rfl, Or.inr ⟨0, by simp, _, _, hval₀, hval₁, by decide⟩⟩⟩
  refine ⟨hs, by decide +kernel, hactive, hrun, hval₀, hval₁, hstop, ?_⟩
  rw [cpu_exec_executedTo_iff hs.watched (by decide +kernel) hactive (by decide) hrun ?_ hstop]
  · intro hvis
    have hfit := hvis.fits 0 (by simp) _ hval₁
    omega
  · intro i hi p hp
    obtain rfl : p = 0 := by simpa using hp
    rcases (by omega : i = 0 ∨ i = 1) with rfl | rfl
    · exact ⟨_, hval₀⟩
    · exact ⟨_, hval₁⟩

end Nemu.Monitor
