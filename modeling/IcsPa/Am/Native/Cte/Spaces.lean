import IcsPa.Am.Native.Cte.Trap
import IcsPa.Am.Native.Host

/-! # The way back returns

    To go on with a context is to switch to its address space, and the switch
    walks through two lists of pages.  In a run in which no page is mapped again
    these lists are finite, and every context leads to one of them.  So the switch
    ends, if the host maps what it is asked to map. -/

open CCall Chain

set_option linter.style.nameCheck false

namespace Am.Native.Cte

/-! ## Section 1: The switch -/

section switch
variable {A : Type} {P : Platform} {v v' : Vme A} {owner : Nat → Option Nat}

/-- The host never refuses an `mmap`. -/
def Maps (P : Platform) : Prop := ∀ va pa prot, P.mmap_ok va pa prot = true

/-- A loop over a list of the invariant returns if its body does. -/
theorem list_foreach_ok {body : Nat → Vme A → Except Fault (Vme A)} (hbody : Quiet body)
    (hi : ListInv v owner) {h : Nat} (hh : owner h = some h)
    (hok : ∀ p t, owner p = some h → p ≠ h → SameLists v t → body p t ≠ .error .assertion) :
    ∃ t, list_foreach body h v = .ok t ∧ SameLists v t ∧ t.vm_head = v.vm_head := by
  obtain ⟨l, hlinks, hl⟩ := hi.chains h hh
  have hout : h ∉ l := (List.nodup_cons.mp (links_nodup hlinks)).1
  rw [list_foreach_eq hbody.next hi hh hlinks.2]
  apply foldlM_total (P := fun _ t => SameLists v t ∧ t.vm_head = v.vm_head) ?_
    ⟨SameLists.refl v, rfl⟩
  intro done p rest t hsplit ⟨hsame, hvm⟩
  have hp : p ∈ l := by
    rw [hsplit]
    simp
  have hne : p ≠ h := fun heq => hout (heq ▸ hp)
  rcases hbody p t with herr | ⟨t', hrun, hsame', hvm'⟩
  · exact absurd herr (hok p t (hl p (List.mem_cons_of_mem h hp)) hne hsame)
  · exact ⟨t', hrun, hsame.trans hsame', hvm'.trans hvm⟩

theorem switch_out_ok (p : Nat) (t : Vme A) : switch_out p t ≠ .error .assertion := by
  unfold switch_out
  split <;> simp

theorem switch_in_ok (hhost : Maps P) {p : Nat} {t : Vme A}
    (huser : USER_SPACE.IN_RANGE (t.page p).va = true) : switch_in P p t ≠ .error .assertion := by
  unfold switch_in map_now __am_pmem_map
  simp [huser, hhost (t.page p).va]

/-- Both loops of the switch return. -/
theorem switch_ok (hhost : Maps P) (hi : ListInv v owner) {head : Option Nat}
    (hhead : ∀ h, head = some h → owner h = some h) : ∃ v', __am_switch P head v = .ok v' := by
  have hout : ∃ t, foreach_if switch_out v.vm_head v = .ok t ∧ SameLists v t ∧
      t.vm_head = v.vm_head := by
    cases hcur : v.vm_head with
    | none => exact ⟨v, rfl, SameLists.refl v, hcur⟩
    | some h =>
      obtain ⟨t, hrun, hsame, hvm⟩ := list_foreach_ok quiet_switch_out hi (hi.current h hcur)
        fun p t _ _ _ => switch_out_ok p t
      exact ⟨t, hrun, hsame, hvm.trans hcur⟩
  obtain ⟨t, hrun, hsame, hvm⟩ := hout
  have hit : ListInv t owner := hsame.inv hi fun p hp => hi.current p (hvm ▸ hp)
  have hin : ∃ u, foreach_if (switch_in P) head t = .ok u := by
    cases head with
    | none => exact ⟨t, rfl⟩
    | some h =>
      obtain ⟨u, hu, -⟩ := list_foreach_ok quiet_switch_in hit (hhead h rfl) fun p w hp hne hw => by
        apply switch_in_ok hhost
        rw [hw.page p]
        exact hit.user p h hp hne
      exact ⟨u, hu⟩
  obtain ⟨u, hu⟩ := hin
  unfold __am_switch
  split
  · exact ⟨v, rfl⟩
  · split
    · exact ⟨v, rfl⟩
    · rw [hrun, ok_bind, hu]
      exact ⟨_, rfl⟩

/-- With address spaces, the one of the context is the current one. -/
theorem switch_head {head : Option Nat} (h : __am_switch P head v = .ok v')
    (hen : v'.vme_enable = true) : v'.vm_head = head := by
  unfold __am_switch at h
  split at h
  · rename_i hoff
    cases h
    simp [hen] at hoff
  · split at h
    · rename_i hsame
      cases h
      exact hsame.symm
    · obtain ⟨v₁, -, h⟩ := bind_eq_ok h
      obtain ⟨v₂, -, h⟩ := bind_eq_ok h
      cases h
      rfl

/-! ### `vme_enable` is never taken back -/

theorem map_now_enable {p : Nat} (h : map_now P p v = .ok v') : v'.vme_enable = v.vme_enable := by
  obtain ⟨t, hmap, h⟩ := bind_eq_ok h
  obtain ⟨-, -, hmap⟩ := bind_eq_ok hmap
  cases hmap
  cases h
  rfl

theorem foreach_if_enable {body : Nat → Vme A → Except Fault (Vme A)}
    (hbody : ∀ p t t', body p t = .ok t' → t'.vme_enable = t.vme_enable) {head : Option Nat}
    (h : foreach_if body head v = .ok v') : v'.vme_enable = v.vme_enable := by
  cases head with
  | none =>
    cases h
    rfl
  | some head =>
    exact foreach_keeps (Q := fun t => t.vme_enable = v.vme_enable)
      (fun p t t' hrun ht => (hbody p t t' hrun).trans ht) h rfl

theorem switch_enable {head : Option Nat} (h : __am_switch P head v = .ok v') :
    v'.vme_enable = v.vme_enable := by
  unfold __am_switch at h
  split at h
  · cases h
    rfl
  · split at h
    · cases h
      rfl
    · obtain ⟨t, hout, h⟩ := bind_eq_ok h
      obtain ⟨u, hin, h⟩ := bind_eq_ok h
      cases h
      have hleft : t.vme_enable = v.vme_enable := by
        apply foreach_if_enable ?_ hout
        intro p w w' hrun
        unfold switch_out at hrun
        split at hrun
        · cases hrun
          rfl
        · cases hrun
          rfl
      have hentered : u.vme_enable = t.vme_enable := by
        apply foreach_if_enable ?_ hin
        intro p w w' hrun
        obtain ⟨-, -, hrun⟩ := bind_eq_ok hrun
        exact map_now_enable hrun
      exact hentered.trans hleft

theorem call_enable [DecidableEq A] {c : Call A} (h : Native.call P v c = .ok v') :
    v'.vme_enable = v.vme_enable := by
  cases c with
  | protect as =>
    cases h
    rfl
  | switch ctx => exact switch_enable h
  | map as va pa prot =>
    obtain ⟨-, -, h⟩ := bind_eq_ok h
    obtain ⟨-, -, h⟩ := bind_eq_ok h
    obtain ⟨-, -, h⟩ := bind_eq_ok h
    cases hptr : (v.space as).ptr with
    | none =>
      rw [hptr] at h
      cases h
    | some head =>
      rw [hptr] at h
      obtain ⟨found, -, h⟩ := bind_eq_ok h
      cases found <;>
      · dsimp only at h
        split at h
        · have henable := map_now_enable h
          exact henable
        · cases h
          rfl

end switch

/-! ## Section 2: Reachable states -/

section reachable
variable {ρ A : Type} {E : Env ρ} {m : Spaces A} {s s' : Cpu ρ A}

/-- The lists are those of the address spaces, and the contexts lead to them. -/
structure SpaceInv (m : Spaces A) (s : Cpu ρ A) (owner : Nat → Option Nat) : Prop where
  lists   : ListInv s.vme owner
  refines : Refines s.vme m
  heads   : ∀ a ctx h, s.mem a = some ctx → ctx.vm_head = some h → owner h = some h

theorem SpaceInv.put {owner : Nat → Option Nat} (hi : SpaceInv m s owner) {c : Nat}
    {ctx : Context ρ} (hhead : ∀ h, ctx.vm_head = some h → owner h = some h) {a : Nat}
    {ctx' : Context ρ} {h : Nat} (hmem : put E c ctx s.mem a = some ctx')
    (hctx : ctx'.vm_head = some h) : owner h = some h := by
  rcases put_some hmem with rfl | hold
  · exact hhead h hctx
  · exact hi.heads a ctx' h hold hctx

variable [DecidableEq A]

/-- What a step does to the address spaces. -/
def spaces (m : Spaces A) : Step ρ A → Spaces A
  | .vme c => m.call c
  | _ => m

/-- A step that maps no page again; and code may copy contexts, but makes up no
    address space for one. -/
def Proper (m : Spaces A) (s : Cpu ρ A) : Step ρ A → Prop
  | .compute _ write => ∀ a ctx, write s.mem a = some ctx →
      ctx.vm_head = none ∨ ∃ b ctx', s.mem b = some ctx' ∧ ctx.vm_head = ctx'.vm_head
  | .vme c => ¬ Remaps m c
  | _ => True

/-- The states that the process comes to, with the address spaces made so far. -/
inductive Reachable (E : Env ρ) : Spaces A → Cpu ρ A → Prop
  | boot (uc : Ucontext ρ) : Reachable E (fun _ => none) (boot uc)
  | step {m : Spaces A} {s s' : Cpu ρ A} (x : Step ρ A) : Reachable E m s → Proper m s x →
      step E s x = .ok s' → Reachable E (spaces m x) s'

/-- All steps of a run are proper. -/
def ProperAll (E : Env ρ) : Spaces A → List (Step ρ A) → Cpu ρ A → Prop
  | _, [], _ => True
  | m, x :: xs, s => Proper m s x ∧ ∀ s', step E s x = .ok s' → ProperAll E (spaces m x) xs s'

/-- What a proper run comes to. -/
theorem Reachable.run {steps : List (Step ρ A)} (hs : Reachable E m s)
    (hproper : ProperAll E m steps s) (h : run E steps s = .ok s') :
    Reachable E (steps.foldl spaces m) s' := by
  induction steps generalizing m s with
  | nil =>
    cases h
    exact hs
  | cons x xs ih =>
    unfold Cte.run at h
    rw [List.foldlM_cons] at h
    obtain ⟨t, hx, h⟩ := bind_eq_ok h
    exact ih (.step x hs hproper.1 hx) (hproper.2 t hx) h

/-- Step lemma. -/
theorem step_inv {owner : Nat → Option Nat} (hi : SpaceInv m s owner) {x : Step ρ A}
    (hx : Proper m s x) (h : step E s x = .ok s') : ∃ owner', SpaceInv (spaces m x) s' owner' := by
  cases x with
  | compute uc write =>
    cases h
    refine ⟨owner, hi.lists, hi.refines, fun a ctx k hmem hctx => ?_⟩
    rcases hx a ctx hmem with hnone | ⟨b, ctx', hold, hsame⟩
    · rw [hnone] at hctx
      cases hctx
    · exact hi.heads b ctx' k hold (hsame ▸ hctx)
  | signal sig si_code si_addr =>
    rcases signal_cases h with ⟨hmem, hvme⟩ | ⟨-, ev, rfl⟩
    · exact ⟨owner, hvme ▸ hi.lists, hvme ▸ hi.refines, hmem ▸ hi.heads⟩
    · exact ⟨owner, hi.lists, hi.refines, fun a ctx k hmem hctx =>
        hi.put (fun k hk => hi.lists.current k hk) hmem hctx⟩
  | resume c =>
    obtain ⟨-, -, h⟩ := bind_eq_ok h
    cases hmem : s.mem c with
    | none =>
      rw [hmem] at h
      cases h
    | some ctx =>
      rw [hmem] at h
      obtain ⟨vme, hswitch, h⟩ := bind_eq_ok h
      simp [sig_handler, event_of, iret, hmem] at h
      have hhead : ∀ k, ctx.vm_head = some k → owner k = some k := fun k => hi.heads c ctx k hmem
      rcases switch_cases (P := E.P) hi.lists hhead with herr | ⟨t, hok, hsame, hvm⟩
      · rw [herr] at hswitch
        cases hswitch
      · rw [hok] at hswitch
        cases hswitch
        rw [← h]
        refine ⟨owner, hsame.inv hi.lists fun k hk => ?_, hsame.refines hi.refines, hi.heads⟩
        rcases hvm with hold | hnew
        · exact hi.lists.current k (hold ▸ hk)
        · exact hhead k (hnew ▸ hk)
  | vme_init =>
    cases h
    have hsame : SameLists s.vme { s.vme with vme_enable := true } := ⟨fun _ => rfl, rfl, rfl⟩
    exact ⟨owner, hsame.inv hi.lists hi.lists.current, hsame.refines hi.refines, hi.heads⟩
  | vme c =>
    simp only [step] at h
    split at h
    · obtain ⟨vme, hcall, h⟩ := bind_eq_ok h
      cases h
      obtain ⟨t, owner', hok, hlists, hrefines, hgrows⟩ :=
        call_refines hi.lists hi.refines hx (by rw [hcall]; simp)
      obtain rfl : vme = t := Except.ok.inj (hcall.symm.trans hok)
      exact ⟨owner', hlists, hrefines, fun a ctx k hmem hctx =>
        hgrows k k (hi.heads a ctx k hmem hctx)⟩
    · cases h
  | kcontext kstack_end entry arg =>
    cases h
    refine ⟨owner, hi.lists, hi.refines, fun a ctx k hmem hctx => hi.put (fun k hk => ?_) hmem hctx⟩
    cases hk
  | ucontext as kstack_end entry =>
    cases h
    exact ⟨owner, hi.lists, hi.refines, fun a ctx k hmem hctx =>
      hi.put (fun k hk => hi.lists.heads as k hk) hmem hctx⟩

theorem reachable_inv (h : Reachable E m s) : ∃ owner, SpaceInv m s owner := by
  induction h with
  | boot uc =>
    have hsame : SameLists (vme_init : Vme A) { vme_init with vme_enable := false } :=
      ⟨fun _ => rfl, rfl, rfl⟩
    refine ⟨fun _ => none, hsame.inv init_inv fun k hk => ?_, fun _ => rfl, fun a ctx k hmem => ?_⟩
    · cases hk
    · cases hmem
  | step x _ hx hstep ih =>
    obtain ⟨owner, hi⟩ := ih
    exact step_inv hi hx hstep

/-! ## Section 3: The way back -/

/-- What the process is when it goes on with `ctx`. -/
structure Resumed (ctx : Context ρ) (s s' : Cpu ρ A) : Prop where
  uc     : s'.uc = ctx.uc
  ksp    : s'.ksp = ctx.ksp
  enable : s'.vme.vme_enable = s.vme.vme_enable
  head   : s.vme.vme_enable = true → s'.vme.vm_head = ctx.vm_head

omit [DecidableEq A] in
theorem leave_eq {c : Nat} {ctx : Context ρ} (hmem : s.mem c = some ctx)
    (h : irq_handle_leave E c s = .ok s') : Resumed ctx s s' := by
  unfold irq_handle_leave at h
  rw [hmem] at h
  obtain ⟨-, -, h⟩ := bind_eq_ok h
  obtain ⟨vme, hswitch, h⟩ := bind_eq_ok h
  simp [sig_handler, event_of, iret, hmem] at h
  subst h
  have henable : vme.vme_enable = s.vme.vme_enable := switch_enable hswitch
  exact ⟨rfl, rfl, henable, fun hen => switch_head hswitch (henable.trans hen)⟩

/-- In a reachable state every context can be gone on with. -/
theorem leave_ok (hhost : Maps E.P) (hs : Reachable E m s) {c : Nat} {ctx : Context ρ} (hc : 0 < c)
    (hmem : s.mem c = some ctx) : ∃ s', irq_handle_leave E c s = .ok s' ∧ Resumed ctx s s' := by
  obtain ⟨owner, hi⟩ := reachable_inv hs
  obtain ⟨vme, hswitch⟩ := switch_ok hhost hi.lists fun k hk => hi.heads c ctx k hmem hk
  have hleave : irq_handle_leave E c s = .ok { s with
      vme, uc := ctx.uc, ksp := ctx.ksp, ev := ⟨.error, 0, 0⟩ } := by
    have hne : decide (c ≠ 0) = true := decide_eq_true (Nat.pos_iff_ne_zero.mp hc)
    unfold irq_handle_leave
    rw [hne, cassert_true, ok_bind, hmem]
    dsimp only
    rw [hswitch]
    simp [sig_handler, event_of, iret, hmem]
  exact ⟨_, hleave, leave_eq hmem hleave⟩

end reachable

end Am.Native.Cte
