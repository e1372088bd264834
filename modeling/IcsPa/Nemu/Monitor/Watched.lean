import IcsPa.Nemu.Monitor

/-! # What the monitor watches

    `Watched T s` is the invariant of a session: the pool is well formed, and
    every active watchpoint holds a string with a value and the low 32 bits
    of that value in the current guest.  `check_wp_changed` restores it after
    every instruction, for every node of the list. -/

open CCall Chain

namespace Nemu.Monitor

open Watchpoint Difftest

/-! ## Section 1: Values -/

/-- The watched expression of node `p` has the value `v`. -/
def Value (g : Expr.Guest) (s : WpPool) (p v : Nat) : Prop :=
  ∃ e, (s.wp_pool p).watch_expr = .live e ∧ Expr.expr g e = .ok (some v)

/-- The value of node `p` differs from the stored one in its low 32 bits. -/
def Changed (g : Expr.Guest) (s : WpPool) (p : Nat) : Prop :=
  ∃ v, Value g s p v ∧ to_uint32 v ≠ (s.wp_pool p).watch_value

/-- Some active watchpoint has changed. -/
def WatchHit (g : Expr.Guest) (s : WpPool) : Prop :=
  ∃ active, Links s.next s.head active ∧ ∃ p ∈ active, Changed g s p

section pool
variable {g : Expr.Guest} {s s' : WpPool} {active free : List Nat} {p : Nat}

theorem Value.unique {v w : Nat} (h : Value g s p v) (h' : Value g s p w) : v = w := by
  obtain ⟨e, he, hv⟩ := h
  obtain ⟨e', he', hw⟩ := h'
  rw [he] at he'
  cases he'
  rw [hv] at hw
  simpa using hw

theorem Value.congr {v : Nat} (hexpr : (s'.wp_pool p).watch_expr = (s.wp_pool p).watch_expr) :
    Value g s' p v ↔ Value g s p v := by
  unfold Value
  rw [hexpr]

theorem changed_iff {v : Nat} (h : Value g s p v) :
    Changed g s p ↔ to_uint32 v ≠ (s.wp_pool p).watch_value := by
  refine ⟨fun ⟨w, hw, hne⟩ => ?_, fun hne => ⟨v, h, hne⟩⟩
  rw [h.unique hw]; exact hne

/-! ## Section 2: `check_wp_changed` -/

/-- `p->watch_value = v`. -/
def set_value (s : WpPool) (p v : Nat) : WpPool :=
  s.write p { s.wp_pool p with watch_value := v }

theorem set_value_self (s : WpPool) (p : Nat) : set_value s p (s.wp_pool p).watch_value = s := by
  unfold set_value WpPool.write
  rw [Function.update_eq_self]

theorem set_value_watch_expr (s : WpPool) (p v q : Nat) :
    ((set_value s p v).wp_pool q).watch_expr = (s.wp_pool q).watch_expr := by
  unfold set_value
  by_cases hq : q = p
  · subst hq; rw [WpPool.write_self]
  · rw [WpPool.write_ne _ _ hq]

theorem set_value_inv (h : WpInv s active free) (p v : Nat) :
    WpInv (set_value s p v) active free :=
  h.set p (s.wp_pool p).watch_expr v

/-- The loop body stores the value of a node that has one. -/
theorem check_wp_eq {v : Nat} {changed : Bool} (h : Value g s p v) :
    check_wp g p (s, changed) =
      .ok (set_value s p (to_uint32 v),
        changed || decide (to_uint32 v ≠ (s.wp_pool p).watch_value)) := by
  obtain ⟨e, he, hv⟩ := h
  unfold check_wp
  rw [he]
  show (Expr.expr g e >>= _) = _
  rw [hv, ok_bind]
  by_cases heq : to_uint32 v = (s.wp_pool p).watch_value
  · rw [heq, set_value_self]
    simp [heq]
  · simp [heq, set_value]

/-- The loop body only returns at a node that has a value. -/
theorem check_wp_value {r : WpPool × Bool} {changed : Bool}
    (h : check_wp g p (s, changed) = .ok r) : ∃ v, Value g s p v := by
  obtain ⟨e, he, h⟩ := bind_eq_ok h
  obtain ⟨o, hv, h⟩ := bind_eq_ok h
  cases o with
  | none => cases h
  | some v =>
    refine ⟨v, e, ?_, hv⟩
    cases hp : (s.wp_pool p).watch_expr with
    | live e' => rw [hp] at he; cases he; rfl
    | null => rw [hp] at he; cases he
    | freed => rw [hp] at he; cases he

/-- The loop body leaves all links. -/
theorem check_wp_next {r : WpPool × Bool} {changed : Bool}
    (h : check_wp g p (s, changed) = .ok r) : r.1.next = s.next := by
  obtain ⟨v, hv⟩ := check_wp_value h
  rw [check_wp_eq hv] at h
  cases h
  exact s.write_next_self p _ rfl

/-- What the loop leaves after the nodes `l`. -/
structure Rechecked (g : Expr.Guest) (l : List Nat) (s s' : WpPool) : Prop where
  exprs  : ∀ p, (s'.wp_pool p).watch_expr = (s.wp_pool p).watch_expr
  values : ∀ p ∈ l, ∃ v, Value g s p v ∧ (s'.wp_pool p).watch_value = to_uint32 v
  others : ∀ p, p ∉ l → (s'.wp_pool p).watch_value = (s.wp_pool p).watch_value

/-- The loop over the nodes of a list: each is updated, and `changed` tells
    whether one of them was not up to date. -/
theorem foldlM_check_wp {l : List Nat} {changed changed' : Bool} (hl : l.Nodup)
    (hinv : WpInv s active free)
    (h : l.foldlM (fun s p => check_wp g p s) (s, changed) = .ok (s', changed')) :
    WpInv s' active free ∧ Rechecked g l s s' ∧
      (changed' = true ↔ changed = true ∨ ∃ p ∈ l, Changed g s p) := by
  induction l generalizing s changed with
  | nil =>
    cases h
    exact ⟨hinv, ⟨fun _ => rfl, by simp, fun _ _ => rfl⟩, by simp⟩
  | cons a l ih =>
    obtain ⟨ha, hl'⟩ := List.nodup_cons.mp hl
    rw [List.foldlM_cons] at h
    obtain ⟨r, hbody, hrest⟩ := bind_eq_ok h
    obtain ⟨v, hv⟩ := check_wp_value hbody
    rw [check_wp_eq hv] at hbody
    cases hbody
    -- The node gets its new value, and the rest of the list is checked.
    let mid := set_value s a (to_uint32 v)
    obtain ⟨hinv', hre, hch⟩ := ih hl' (set_value_inv hinv a _) hrest
    have hexpr : ∀ p, (mid.wp_pool p).watch_expr = (s.wp_pool p).watch_expr :=
      set_value_watch_expr s a _
    have hother : ∀ p, p ≠ a → mid.wp_pool p = s.wp_pool p :=
      fun p hp => WpPool.write_ne s _ hp
    refine ⟨hinv', ⟨fun p => ?_, fun p hp => ?_, fun p hp => ?_⟩, ?_⟩
    · rw [hre.exprs p]; exact hexpr p
    · rcases List.mem_cons.mp hp with rfl | hp
      · -- The rest of the loop does not come back to the node.
        refine ⟨v, hv, ?_⟩
        rw [hre.others p ha]
        show (mid.wp_pool p).watch_value = _
        rw [show mid.wp_pool p = _ from WpPool.write_self s p _]
      · obtain ⟨w, hw, hstored⟩ := hre.values p hp
        exact ⟨w, (Value.congr (hexpr p)).mp hw, hstored⟩
    · have hpa : p ≠ a := fun hpa => hp (by simp [hpa])
      rw [hre.others p (fun hmem => hp (List.mem_cons_of_mem a hmem))]
      show (mid.wp_pool p).watch_value = _
      rw [hother p hpa]
    -- What is written to one node changes no other.
    · have hsame : (∃ p ∈ l, Changed g mid p) ↔ ∃ p ∈ l, Changed g s p := by
        refine exists_congr fun p => and_congr_right fun hp => ?_
        have hpa : p ≠ a := fun hpa => ha (hpa ▸ hp)
        unfold Changed Value
        rw [hother p hpa]
      rw [hch, List.exists_mem_cons_iff, changed_iff hv]
      rw [show (∃ p ∈ l, Changed g (set_value s a (to_uint32 v)) p) ↔ _ from hsame]
      simp [or_assoc]

/-- The loop gets through if every node has a value. -/
theorem foldlM_check_wp_ok {l : List Nat} {changed : Bool}
    (h : ∀ p ∈ l, ∃ v, Value g s p v) :
    ∃ r, l.foldlM (fun s p => check_wp g p s) (s, changed) = .ok r := by
  induction l generalizing s changed with
  | nil => exact ⟨_, rfl⟩
  | cons a l ih =>
    obtain ⟨v, hv⟩ := h a List.mem_cons_self
    rw [List.foldlM_cons, check_wp_eq hv, ok_bind]
    apply ih
    intro p hp
    obtain ⟨w, hw⟩ := h p (List.mem_cons_of_mem a hp)
    exact ⟨w, (Value.congr (set_value_watch_expr s a _ p)).mpr hw⟩

/-- On a well-formed pool the loop visits the active nodes. -/
theorem check_wp_changed_eq (h : WpInv s active free) :
    check_wp_changed g s = active.foldlM (fun s p => check_wp g p s) (s, false) := by
  have hlen := h.length_eq
  unfold check_wp_changed
  exact foreach_eq_foldlM (fun p s r hr => check_wp_next hr) h.active_links (by omega)

/-- `check_wp_changed` updates every active node and tells whether one has
    changed. -/
theorem check_wp_changed_spec {changed : Bool} (hinv : WpInv s active free)
    (h : check_wp_changed g s = .ok (s', changed)) :
    WpInv s' active free ∧ Rechecked g active s s' ∧ (changed = true ↔ WatchHit g s) := by
  rw [check_wp_changed_eq hinv] at h
  obtain ⟨hinv', hre, hch⟩ := foldlM_check_wp (links_nodup hinv.active_links) hinv h
  refine ⟨hinv', hre, hch.trans ⟨fun hor => ?_, fun ⟨l, hlinks, hp⟩ => ?_⟩⟩
  · exact ⟨active, hinv.active_links, hor.resolve_left (by simp)⟩
  · rw [links_unique hlinks hinv.active_links] at hp
    exact Or.inr hp

/-! ## Section 3: The invariant of a session -/

/-- Every active node has a string with a value, and stores its low 32 bits. -/
def UpToDate (g : Expr.Guest) (s : WpPool) (active : List Nat) : Prop :=
  ∀ p ∈ active, ∃ v, Value g s p v ∧ (s.wp_pool p).watch_value = to_uint32 v

theorem Rechecked.upToDate (h : Rechecked g active s s') : UpToDate g s' active := by
  intro p hp
  obtain ⟨v, hv, hstored⟩ := h.values p hp
  exact ⟨v, (Value.congr (h.exprs p)).mpr hv, hstored⟩

end pool

section session
variable {M V R Q : Type} {T : Target M V R Q}

variable (T) in
/-- The invariant. -/
def Watched (s : Mon M V Q) : Prop :=
  ∃ active free, WpInv s.pool active free ∧ UpToDate (guest T s.machine) s.pool active

variable (T) in
/-- The invariant of a configuration; after the session nothing is left to say. -/
def Conf.Watched : Conf M V Q → Prop
  | prompt s => Monitor.Watched T s
  | running _ _ s => Monitor.Watched T s
  | returned _ => True

theorem init_watched (m : M) (v : V) (ref : Q) : Watched T (init m v ref) :=
  ⟨[], List.range NR_WP, init_wp_pool_inv, by simp [UpToDate]⟩

/-- The check after an instruction restores the invariant, whatever the
    instruction did to the guest. -/
theorem watch_watched {s s' : Mon M V Q} {active free : List Nat}
    (hinv : WpInv s.pool active free) (h : watch T s = .ok s') :
    WpInv s'.pool active free ∧ UpToDate (guest T s'.machine) s'.pool active ∧
      s'.machine = s.machine := by
  obtain ⟨⟨pool, changed⟩, hcheck, h⟩ := bind_eq_ok h
  obtain ⟨hinv', hre, -⟩ := check_wp_changed_spec hinv hcheck
  have hup := hre.upToDate
  cases changed with
  | false => cases h; exact ⟨hinv', hup, rfl⟩
  | true => cases h; exact ⟨hinv', hup, rfl⟩

/-- What a completed iteration is made of. -/
theorem iteration_cases {s s' : Mon M V Q} (h : iteration T s = .ok s') :
    ∃ s₁ s₂, exec_once T s = .ok s₁ ∧ watch T s₁ = .ok s₂ ∧ s' = update T s₂ := by
  obtain ⟨s₁, hexec, h⟩ := bind_eq_ok h
  obtain ⟨s₂, hwatch, h⟩ := bind_eq_ok h
  cases h
  exact ⟨s₁, s₂, hexec, hwatch, rfl⟩

theorem exec_once_pool {s s' : Mon M V Q} (h : exec_once T s = .ok s') : s'.pool = s.pool := by
  obtain ⟨x, hx, h⟩ := bind_eq_ok h
  obtain ⟨driver, hd, h⟩ := bind_eq_ok h
  cases h
  rfl

/-- An iteration restores the invariant and keeps the list of active nodes. -/
theorem iteration_watched {s s' : Mon M V Q} {active free : List Nat}
    (hinv : WpInv s.pool active free) (h : iteration T s = .ok s') :
    WpInv s'.pool active free ∧ UpToDate (guest T s'.machine) s'.pool active := by
  obtain ⟨s₁, s₂, hexec, hwatch, rfl⟩ := iteration_cases h
  rw [← exec_once_pool hexec] at hinv
  obtain ⟨hinv', hup, -⟩ := watch_watched hinv hwatch
  obtain ⟨hm, hp, -⟩ := update_frame T s₂
  rw [hm, hp]
  exact ⟨hinv', hup⟩

/-! ### Commands -/

/-- A `cmd_w` that does not end the session adds an up-to-date node. -/
theorem cmd_w_watched {args : Option (List Char)} {s s' : Mon M V Q} {rc : Rc}
    (hs : Watched T s) (h : cmd_w T args s = .ok (rc, s')) (hrc : ¬ rc < 0) : Watched T s' := by
  obtain ⟨active, free, hinv, hup⟩ := hs
  cases args with
  | none => cases h
  | some e =>
    obtain ⟨⟨wp, pool⟩, hnew, h⟩ := bind_eq_ok h
    -- A new watchpoint needs a free node.
    cases free with
    | nil => rw [new_wp_full hinv] at hnew; cases hnew
    | cons p free =>
      obtain ⟨t, ht, hinv', hkeep⟩ := new_wp_inv hinv
      rw [ht] at hnew
      cases hnew
      have hp : wp ∉ active := hinv.not_active_of_free List.mem_cons_self
      obtain ⟨o, hv, h⟩ := bind_eq_ok h
      cases o with
      -- An expression without a value gives the node back, with a negative result.
      | none =>
        obtain ⟨pool', -, h⟩ := bind_eq_ok h
        cases h
        exact absurd (by decide) hrc
      | some v =>
        cases h
        refine ⟨wp :: active, free, set_value_inv (hinv'.set wp (.live e) _) wp _,
          fun q hq => ?_⟩
        show ∃ w, Value (guest T s.machine) _ q w ∧ _
        -- The new node has just been given its value; the others keep theirs.
        by_cases hqp : q = wp
        · subst hqp
          refine ⟨v, ⟨e, ?_, hv⟩, ?_⟩
          · rw [WpPool.write_self, WpPool.write_self]
          · rw [WpPool.write_self]
        · obtain ⟨w, ⟨e', he', hw⟩, hstored⟩ := hup q ((List.mem_cons.mp hq).resolve_left hqp)
          refine ⟨w, ⟨e', ?_, hw⟩, ?_⟩
          · rw [WpPool.write_ne _ _ hqp, WpPool.write_ne _ _ hqp, (hkeep q).1, he']
          · rw [WpPool.write_ne _ _ hqp, WpPool.write_ne _ _ hqp, (hkeep q).2, hstored]

/-- One argument of `cmd_d`: it deletes the active node with its number, if
    there is one, and keeps the other nodes as they are. -/
theorem delete_wp_cases {g : Expr.Guest} {arg : List Char} {pool : WpPool} {active free : List Nat}
    (hinv : WpInv pool active free) (hup : UpToDate g pool active) :
    ((∀ p ∈ active, (pool.wp_pool p).NO ≠ to_int (Expr.strtol arg 10)) ∧
        delete_wp arg pool = .ok pool) ∨
      ∃ wp ∈ active, ∃ pool', (pool.wp_pool wp).NO = to_int (Expr.strtol arg 10) ∧
        delete_wp arg pool = .ok pool' ∧ WpInv pool' (active.erase wp) (wp :: free) ∧
        UpToDate g pool' (active.erase wp) := by
  obtain ⟨r, hr, hfound⟩ := no_to_wp_inv hinv (to_int (Expr.strtol arg 10))
  cases r with
  | none =>
    refine Or.inl ⟨fun p hp hno => absurd ((hfound p).mpr ⟨hp, hno⟩) (by simp), ?_⟩
    rw [delete_wp, hr]
    rfl
  | some wp =>
    obtain ⟨hwp, hno⟩ := (hfound wp).mp rfl
    obtain ⟨v, ⟨e, he, -⟩, -⟩ := hup wp hwp
    obtain ⟨pool', hfree, hinv', hnode⟩ :=
      free_wp_inv hinv hwp
      (show free_expr (pool.wp_pool wp).watch_expr = .ok .freed by rw [he]; rfl)
    have hdelete : delete_wp arg pool = .ok pool' := by
      rw [delete_wp, hr]
      exact hfree
    refine Or.inr ⟨wp, hwp, pool', hno, hdelete, hinv', fun p hp => ?_⟩
    have hne : p ≠ wp := by
      rintro rfl
      exact (links_nodup hinv.active_links).not_mem_erase hp
    obtain ⟨w, hw, hstored⟩ := hup p (List.mem_of_mem_erase hp)
    obtain ⟨hexpr, hvalue⟩ := hnode.others p hne
    exact ⟨w, (Value.congr hexpr).mpr hw, hvalue.trans hstored⟩

theorem delete_wp_upToDate {g : Expr.Guest} {arg : List Char} {pool pool' : WpPool}
    (hs : ∃ active free, WpInv pool active free ∧ UpToDate g pool active)
    (h : delete_wp arg pool = .ok pool') :
    ∃ active free, WpInv pool' active free ∧ UpToDate g pool' active := by
  obtain ⟨active, free, hinv, hup⟩ := hs
  rcases delete_wp_cases hinv hup with ⟨-, hkeep⟩ | ⟨wp, -, pool'', -, hdel, hinv', hup'⟩
  · rw [hkeep] at h
    cases h
    exact ⟨active, free, hinv, hup⟩
  · rw [hdel] at h
    cases h
    exact ⟨_, _, hinv', hup'⟩

theorem foldlM_delete_upToDate {g : Expr.Guest} {args : List (List Char)} {pool pool' : WpPool}
    (hs : ∃ active free, WpInv pool active free ∧ UpToDate g pool active)
    (h : args.foldlM (fun pool arg => delete_wp arg pool) pool = .ok pool') :
    ∃ active free, WpInv pool' active free ∧ UpToDate g pool' active := by
  induction args generalizing pool with
  | nil => cases h; exact hs
  | cons arg args ih =>
    rw [List.foldlM_cons] at h
    obtain ⟨mid, hfirst, hrest⟩ := bind_eq_ok h
    exact ih (delete_wp_upToDate hs hfirst) hrest

theorem cmd_d_watched {args : List (List Char)} {s s' : Mon M V Q} {rc : Rc}
    (hs : Watched T s) (h : cmd_d args s = .ok (rc, s')) : Watched T s' := by
  unfold cmd_d at h
  split at h
  · cases h; exact hs
  · obtain ⟨pool, hrun, h⟩ := bind_eq_ok h
    cases h
    exact foldlM_delete_upToDate hs hrun

/-! ### Steps and runs -/

/-- `next_command` after a handler that keeps the invariant unless it ends the
    session. -/
theorem next_command_watched {rc : Rc} {s : Mon M V Q} (h : ¬ rc < 0 → Watched T s) :
    (next_command (rc, s)).Watched T := by
  unfold next_command
  split
  · exact trivial
  · rename_i hrc
    exact h hrc

theorem clear_watched {s : Mon M V Q} (h : Watched T s) : Watched T (clear T s) := by
  obtain ⟨hm, hp, -⟩ := clear_frame T s
  unfold Watched
  rw [hm, hp]
  exact h

theorem leave_watched {s : Mon M V Q} (i : Nat) (h : Watched T s) : Watched T (leave T i s) := by
  obtain ⟨hm, hp, -⟩ := leave_frame T i s
  unfold Watched
  rw [hm, hp]
  exact h

/-- Step lemma. -/
theorem step_watched {c c' : Conf M V Q} {l : Label} (hc : c.Watched T)
    (h : step T l c = .ok (some c')) : c'.Watched T := by
  cases step_cases T h with
  | refused => exact clear_watched hc
  | entered => exact clear_watched hc
  | iterated hiter =>
    -- An iteration checks every watchpoint again.
    obtain ⟨active, free, hinv, -⟩ := hc
    exact ⟨active, free, iteration_watched hinv hiter⟩
  | left => exact leave_watched _ hc
  | watch hcmd => exact next_command_watched fun hrc => cmd_w_watched (clear_watched hc) hcmd hrc
  | delete hcmd => exact next_command_watched fun _ => cmd_d_watched (clear_watched hc) hcmd
  | quit => exact trivial

/-- Run lemma. -/
theorem Reachable.watched {c : Conf M V Q} (h : Reachable T c) : c.Watched T := by
  induction h with
  | init m v ref => exact init_watched m v ref
  | step _ h ih => exact step_watched ih h

end session

end Nemu.Monitor
