-- SUMMARY: Services signal and reap their own processes, unless a stored id is stale.
import FruitClawApps.Lib.Transition
import FruitClawApps.System.Nxinit.Service
import Mathlib.Data.List.Nodup

/-!
# Services and their processes

A service is running exactly if a child of its own was not waited for yet, and then that child has
the stored id. The id outlives the process, so the invariant also says that no child has an id that
another service stores.
-/

namespace System.Nxinit

open List

open Transition (run Meets)

/-- The signal went to a child of the service, the exit was charged to the owner. -/
def Record.Right : Record → Prop
  | .signal service target => ∃ c, target = some c ∧ c.owner = some service
  | .reaped child service => service = child.owner

/-- The id of a new child: no other service stores it, and no child has it. -/
def FreshFor (st : Services) (id pid : Nat) : Prop :=
  (∀ s ∈ st.services, s.id ≠ id → s.pid ≠ pid) ∧ ∀ c ∈ st.world.children, c.pid ≠ pid

instance (st : Services) (id pid : Nat) : Decidable (FreshFor st id pid) := inferInstanceAs (Decidable (_ ∧ _))

/-- A new process of a service, if there is one, has such an id. -/
def SpawnsFresh (st : Services) (id : Nat) : Spawn → Prop
  | .fail => True
  | .pid pid => FreshFor st id pid

instance (st : Services) (id : Nat) : (spawn : Spawn) → Decidable (SpawnsFresh st id spawn)
  | .fail => isTrue trivial
  | .pid pid => inferInstanceAs (Decidable (FreshFor st id pid))

/-- A service that waits for its restart is not stopped, new children get fresh ids, and the system
does not deny a process that was not waited for. -/
def Careful (st : Services) : Act → Prop
  | .start id spawn _ => SpawnsFresh st id spawn
  | .stop id esrch _ => esrch = false ∧ ∀ s ∈ st.services, s.id = id → s.restarting = true → s.running = true
  | .refresh id choice _ => choice.esrch = false ∧ SpawnsFresh st id choice.spawn
  | .command pid => (∀ s ∈ st.services, s.pid ≠ pid) ∧ ∀ c ∈ st.world.children, c.pid ≠ pid
  | .exit _ => True
  | .reap _ => True

instance (st : Services) : (a : Act) → Decidable (Careful st a)
  | .start id spawn _ => inferInstanceAs (Decidable (SpawnsFresh st id spawn))
  | .stop _ _ _ => inferInstanceAs (Decidable (_ ∧ _))
  | .refresh _ _ _ => inferInstanceAs (Decidable (_ ∧ _))
  | .command _ => inferInstanceAs (Decidable (_ ∧ _))
  | .exit _ => isTrue trivial
  | .reap _ => isTrue trivial

/-- Services and children belong together. -/
structure Owned (st : Services) : Prop where
  ids : (st.services.map (·.id)).Nodup
  pids : (st.world.children.map (·.pid)).Nodup
  running : ∀ s ∈ st.services, s.running = true → ∃ c ∈ st.world.children, c.pid = s.pid ∧ c.owner = some s.id
  owned : ∀ c ∈ st.world.children, ∀ id, c.owner = some id →
    ∃ s ∈ st.services, s.id = id ∧ s.running = true ∧ s.pid = c.pid
  stored : ∀ c ∈ st.world.children, ∀ s ∈ st.services, s.pid = c.pid → c.owner = some s.id
  log : ∀ e ∈ st.world.log, e.Right

/-! ## What an operation on one service does -/

/-- The effects an operation can have, if new children get fresh ids. -/
inductive Effect (Fresh : Nat → Prop) (s : Service) (w : World) : Option Service → World → Prop
  | keep {s' : Service} (hid : s'.id = s.id) (hpid : s'.pid = s.pid) (hrun : s'.running = s.running) :
      Effect Fresh s w (some s') w
  | signal {s' : Service} (hid : s'.id = s.id) (hpid : s'.pid = s.pid) (hrun : s'.running = s.running)
      (hlive : s.running = true) :
      Effect Fresh s w (some s') { w with log := w.log ++ [.signal s.id (w.target s.pid)] }
  | launch {s' : Service} (hid : s'.id = s.id) (hrun : s'.running = true) (hidle : s.running = false)
      (hfresh : Fresh s'.pid) :
      Effect Fresh s w (some s') { w with children := w.children ++ [⟨s'.pid, some s.id, false⟩] }
  | gone (hidle : s.running = false) : Effect Fresh s w none w

variable {s : Service} {w : World} {Fresh : Nat → Prop}

theorem initServiceReap_same (s : Service) :
    (initServiceReap s).id = s.id ∧ (initServiceReap s).pid = s.pid ∧ (initServiceReap s).running = false := by
  unfold initServiceReap
  cases s.oneshot <;> cases s.disabled <;> exact ⟨rfl, rfl, rfl⟩

theorem killService_false (s : Service) (w : World) :
    killService false s w = (s, { w with log := w.log ++ [.signal s.id (w.target s.pid)] }) := rfl

theorem start_effect {spawn : Spawn} (now : Int) (hfresh : ∀ pid, spawn = .pid pid → Fresh pid) :
    Effect Fresh s w (some (initServiceStart spawn now s w).1) (initServiceStart spawn now s w).2 := by
  unfold initServiceStart
  cases hrun : s.running with
  | true => exact .keep rfl rfl rfl
  | false =>
    have hfail : Effect Fresh s w (some (initServiceReap s)) w := by
      obtain ⟨hid, hpid, hstop⟩ := initServiceReap_same s
      exact .keep hid hpid (hstop.trans hrun.symm)
    cases spawn with
    | fail => exact hfail
    | pid pid =>
      simp only [Bool.false_eq_true, if_false]
      split
      · exact hfail
      · exact .launch rfl rfl hrun (hfresh pid rfl)

theorem stop_effect (now : Int) (hstop : s.restarting = true → s.running = true) :
    Effect Fresh s w (some (initServiceStop false now s w).1) (initServiceStop false now s w).2 := by
  unfold initServiceStop
  split
  case isFalse => exact .keep rfl rfl rfl
  case isTrue hactive =>
    have hrun : s.running = true := (Bool.or_eq_true _ _ ▸ hactive).elim id hstop
    split
    · exact .keep rfl rfl rfl
    simp only [killService_false]
    split
    all_goals exact .signal rfl rfl rfl hrun

theorem refresh_effect {choice : Choice} (now : Int) (hesrch : choice.esrch = false)
    (hfresh : ∀ pid, choice.spawn = .pid pid → Fresh pid) :
    Effect Fresh s w (refreshService choice now s w).1 (refreshService choice now s w).2 := by
  unfold refreshService
  split
  · split
    · exact start_effect now hfresh
    · exact .keep rfl rfl rfl
  split
  case isTrue hkill =>
    split
    · exact .keep rfl rfl rfl
    split
    · rw [hesrch, killService_false]
      refine .signal rfl rfl rfl ?_
      simp only [Bool.and_eq_true] at hkill
      exact hkill.1.1
    · exact .keep rfl rfl rfl
  case isFalse =>
    split
    case isTrue hremove =>
      refine .gone ?_
      simp only [Bool.and_eq_true, Bool.not_eq_true'] at hremove
      exact hremove.2
    case isFalse => exact .keep rfl rfl rfl

/-! ## The invariant -/

variable {st : Services} {id : Nat}

theorem eq_of_pid {children : List Child} (h : (children.map (·.pid)).Nodup) {c d : Child} (hc : c ∈ children)
    (hd : d ∈ children) (hpid : c.pid = d.pid) : c = d := inj_on_of_nodup_map h hc hd hpid

theorem eq_of_id {services : List Service} (h : (services.map (·.id)).Nodup) {x y : Service} (hx : x ∈ services)
    (hy : y ∈ services) (hid : x.id = y.id) : x = y := inj_on_of_nodup_map h hx hy hid

theorem target_eq {w : World} (h : (w.children.map (·.pid)).Nodup) {c : Child} (hc : c ∈ w.children) :
    w.target c.pid = some c := by
  have hfound : ∀ {d}, w.target c.pid = some d → d = c := by
    intro d hd
    rcases Option.or_eq_some_iff.mp hd with hlive | ⟨-, hany⟩
    · have hd := find?_some hlive
      exact eq_of_pid h (mem_of_find?_eq_some hlive) hc (by simpa using (of_decide_eq_true hd).1)
    · exact eq_of_pid h (mem_of_find?_eq_some hany) hc (by simpa using find?_some hany)
  cases ht : w.target c.pid with
  | some d => rw [hfound ht]
  | none =>
    have hnone := (Option.or_eq_none_iff.mp ht).2
    simpa using find?_eq_none.mp hnone c hc

/-- The services after one of them was replaced or removed. -/
theorem mem_replaced {services : List Service} {r : Option Service} (hs : s ∈ services) (hid : s.id = id)
    {x : Service} :
    x ∈ services.filterMap (fun x => if x.id = id then r else some x) ↔ (x ∈ services ∧ x.id ≠ id) ∨ r = some x := by
  rw [mem_filterMap]
  constructor
  · rintro ⟨y, hy, heq⟩
    split at heq
    · exact .inr heq
    · obtain rfl := Option.some.inj heq
      exact .inl ⟨hy, ‹_›⟩
  · rintro (⟨hx, hne⟩ | rfl)
    · exact ⟨x, hx, if_neg hne⟩
    · exact ⟨s, hs, if_pos hid⟩

theorem map_id_replaced {r : Option Service} (hr : ∀ s' ∈ r, s'.id = id) (services : List Service) :
    ((services.filterMap fun x => if x.id = id then r else some x).map (·.id)).Sublist (services.map (·.id)) := by
  induction services with
  | nil => exact List.Sublist.refl _
  | cons x services ih =>
    rw [filterMap_cons]
    by_cases hx : x.id = id
    · rw [if_pos hx]
      cases r with
      | none => exact ih.cons _
      | some s' =>
        have hid : s'.id = x.id := (hr s' rfl).trans hx.symm
        simp only [map_cons, hid]
        exact ih.cons_cons _
    · rw [if_neg hx]
      exact ih.cons_cons _

section

variable (h : Owned st)
include h

theorem Owned.keep (hs : s ∈ st.services) (hid : s.id = id) {s' : Service} (hid' : s'.id = s.id)
    (hpid : s'.pid = s.pid) (hrun : s'.running = s.running) :
    Owned { st with services := st.services.filterMap fun x => if x.id = id then some s' else some x } := by
  have hmem : ∀ {x}, x ∈ st.services.filterMap (fun x => if x.id = id then some s' else some x) →
      ∃ y ∈ st.services, x.id = y.id ∧ x.pid = y.pid ∧ x.running = y.running := by
    intro x hx
    rcases (mem_replaced hs hid).mp hx with ⟨hx, -⟩ | hx
    · exact ⟨x, hx, rfl, rfl, rfl⟩
    · obtain rfl := Option.some.inj hx
      exact ⟨s, hs, hid', hpid, hrun⟩
  refine ⟨h.ids.sublist (map_id_replaced ?_ _), h.pids, fun x hx hlive => ?_, fun c hc id' howner => ?_,
    fun c hc x hx hstored => ?_, h.log⟩
  · rintro y ⟨⟩
    exact hid'.trans hid
  · obtain ⟨y, hy, hyid, hypid, hyrun⟩ := hmem hx
    rw [hyid, hypid]
    exact h.running y hy (hyrun ▸ hlive)
  · obtain ⟨y, hy, hyid, hyrun, hypid⟩ := h.owned c hc id' howner
    by_cases hsame : y.id = id
    · obtain rfl : y = s := eq_of_id h.ids hy hs (hsame.trans hid.symm)
      exact ⟨s', (mem_replaced hs hid).mpr (.inr rfl), hid'.trans hyid, hrun.trans hyrun, hpid.trans hypid⟩
    · exact ⟨y, (mem_replaced hs hid).mpr (.inl ⟨hy, hsame⟩), hyid, hyrun, hypid⟩
  · obtain ⟨y, hy, hyid, hypid, -⟩ := hmem hx
    rw [hyid]
    exact h.stored c hc y hy (hypid ▸ hstored)

theorem Owned.record {e : Record} (he : e.Right) :
    Owned { st with world := { st.world with log := st.world.log ++ [e] } } := by
  refine ⟨h.ids, h.pids, h.running, h.owned, h.stored, fun e' he' => ?_⟩
  rcases mem_append.mp he' with hold | hnew
  · exact h.log e' hold
  · exact mem_singleton.mp hnew ▸ he

theorem Owned.launch (hs : s ∈ st.services) (hid : s.id = id) (hidle : s.running = false) {s' : Service}
    (hid' : s'.id = s.id) (hrun : s'.running = true) (hfresh : FreshFor st id s'.pid) :
    Owned { services := st.services.filterMap fun x => if x.id = id then some s' else some x
            world := { st.world with children := st.world.children ++ [⟨s'.pid, some s.id, false⟩] } } := by
  have hchild : ∀ {c}, c ∈ st.world.children ++ [⟨s'.pid, some s.id, false⟩] →
      c ∈ st.world.children ∨ c = ⟨s'.pid, some s.id, false⟩ := by
    intro c hc
    simpa using hc
  refine ⟨h.ids.sublist (map_id_replaced ?_ _), ?_, fun x hx hlive => ?_, fun c hc id' howner => ?_,
    fun c hc x hx hstored => ?_, h.log⟩
  · rintro y ⟨⟩
    exact hid'.trans hid
  · rw [map_append, nodup_append]
    refine ⟨h.pids, nodup_singleton _, ?_⟩
    rintro p hp q hq rfl
    obtain ⟨c, hc, rfl⟩ := mem_map.mp hp
    exact hfresh.2 c hc (by simpa using hq)
  · rcases (mem_replaced hs hid).mp hx with ⟨hx, -⟩ | hx
    · obtain ⟨c, hc, hcx⟩ := h.running x hx hlive
      exact ⟨c, mem_append_left _ hc, hcx⟩
    · obtain rfl := Option.some.inj hx
      exact ⟨_, mem_append_right _ (mem_singleton_self _), rfl, congrArg some hid'.symm⟩
  · rcases hchild hc with hc | rfl
    · obtain ⟨y, hy, hyid, hyrun, hypid⟩ := h.owned c hc id' howner
      refine ⟨y, (mem_replaced hs hid).mpr (.inl ⟨hy, fun hsame => ?_⟩), hyid, hyrun, hypid⟩
      obtain rfl : y = s := eq_of_id h.ids hy hs (hsame.trans hid.symm)
      exact absurd (hyrun.symm.trans hidle) (by simp)
    · exact ⟨s', (mem_replaced hs hid).mpr (.inr rfl), hid'.trans (Option.some.inj howner), hrun, rfl⟩
  · rcases hchild hc with hc | rfl
    · rcases (mem_replaced hs hid).mp hx with ⟨hx, -⟩ | hx
      · exact h.stored c hc x hx hstored
      · obtain rfl := Option.some.inj hx
        exact absurd hstored.symm (hfresh.2 c hc)
    rcases (mem_replaced hs hid).mp hx with ⟨hx, hne⟩ | hx
    · exact absurd hstored (hfresh.1 x hx hne)
    · obtain rfl := Option.some.inj hx
      exact congrArg some hid'.symm

theorem Owned.gone (hs : s ∈ st.services) (hid : s.id = id) (hidle : s.running = false) :
    Owned { st with services := st.services.filterMap fun x => if x.id = id then none else some x } := by
  have hmem : ∀ {x}, x ∈ st.services.filterMap (fun x => if x.id = id then none else some x) →
      x ∈ st.services := by
    intro x hx
    rcases (mem_replaced hs hid).mp hx with ⟨hx, -⟩ | hx
    · exact hx
    · cases hx
  refine ⟨h.ids.sublist (map_id_replaced (fun y hy => (by cases hy)) _), h.pids, fun x hx => h.running x (hmem hx),
    fun c hc id' howner => ?_, fun c hc x hx => h.stored c hc x (hmem hx), h.log⟩
  obtain ⟨y, hy, hyid, hyrun, hypid⟩ := h.owned c hc id' howner
  refine ⟨y, (mem_replaced hs hid).mpr (.inl ⟨hy, fun hsame => ?_⟩), hyid, hyrun, hypid⟩
  obtain rfl : y = s := eq_of_id h.ids hy hs (hsame.trans hid.symm)
  exact absurd (hyrun.symm.trans hidle) (by simp)

/-- An effect on one service keeps services and children together. -/
theorem Owned.effect (hs : s ∈ st.services) (hid : s.id = id) {r : Option Service} {w : World}
    (heffect : Effect (FreshFor st id) s st.world r w) :
    Owned { services := st.services.filterMap fun x => if x.id = id then r else some x, world := w } := by
  cases heffect with
  | keep hid' hpid hrun => exact h.keep hs hid hid' hpid hrun
  | signal hid' hpid hrun hlive =>
    obtain ⟨c, hc, hcpid, howner⟩ := h.running s hs hlive
    refine (h.keep hs hid hid' hpid hrun).record ⟨c, ?_, howner⟩
    rw [← hcpid]
    exact target_eq h.pids hc
  | launch hid' hrun hidle hfresh => exact h.launch hs hid hidle hid' hrun hfresh
  | gone hidle => exact h.gone hs hid hidle

theorem Owned.apply (id : Nat) (f : Service → World → Option Service × World)
    (hf : ∀ s ∈ st.services, s.id = id → Effect (FreshFor st id) s st.world (f s st.world).1 (f s st.world).2) :
    Owned (st.apply id f) := by
  unfold Services.apply
  cases hfind : st.services.find? (·.id = id) with
  | none => exact h
  | some s =>
    have hs := mem_of_find?_eq_some hfind
    have hid : s.id = id := by simpa using find?_some hfind
    exact h.effect hs hid (hf s hs hid)

/-- The service that `reap_process` finds is the owner of the child. -/
theorem Owned.find_owner {c : Child} (hc : c ∈ st.world.children) :
    (initServiceFindByPid st.services c.pid).map (·.id) = c.owner := by
  cases hfind : initServiceFindByPid st.services c.pid with
  | some s =>
    have hpid : c.pid = s.pid := by simpa using find?_some hfind
    exact (h.stored c hc s (mem_of_find?_eq_some hfind) hpid.symm).symm
  | none =>
    cases howner : c.owner with
    | none => rfl
    | some id =>
      obtain ⟨s, hs, -, -, hpid⟩ := h.owned c hc id howner
      simpa [hpid] using find?_eq_none.mp hfind s hs

/-- A child is taken off the table, and its owner, if it has one, is no longer running. -/
theorem Owned.reaped {c : Child} (hc : c ∈ st.world.children) {services : List Service}
    (hmem : ∀ {x}, x ∈ services ↔ ∃ y ∈ st.services, x = if some y.id = c.owner then initServiceReap y else y)
    (hids : services.map (·.id) = st.services.map (·.id)) :
    Owned { services := services
            world := { children := st.world.children.erase c, log := st.world.log ++ [.reaped c c.owner] } } := by
  have hnodup : st.world.children.Nodup := h.pids.of_map _
  have hsame : ∀ y : Service, (if some y.id = c.owner then initServiceReap y else y).id = y.id ∧
      (if some y.id = c.owner then initServiceReap y else y).pid = y.pid := by
    intro y
    split
    · exact ⟨(initServiceReap_same y).1, (initServiceReap_same y).2.1⟩
    · exact ⟨rfl, rfl⟩
  refine ⟨hids ▸ h.ids, h.pids.sublist (erase_sublist.map _), fun x hx hlive => ?_,
    fun d hd id howner => ?_, fun d hd x hx hstored => ?_, fun e he => ?_⟩
  · obtain ⟨y, hy, rfl⟩ := hmem.mp hx
    by_cases hown : some y.id = c.owner
    · rw [if_pos hown, (initServiceReap_same y).2.2] at hlive
      cases hlive
    rw [if_neg hown] at hlive ⊢
    obtain ⟨d, hd, hpid, hdown⟩ := h.running y hy hlive
    have hne : d ≠ c := fun heq => hown (by rw [← heq, hdown])
    exact ⟨d, (mem_erase_of_ne hne).mpr hd, hpid, hdown⟩
  · obtain ⟨hne, hd⟩ := hnodup.mem_erase_iff.mp hd
    obtain ⟨y, hy, hyid, hyrun, hypid⟩ := h.owned d hd id howner
    have hown : some y.id ≠ c.owner := by
      intro hown
      obtain ⟨z, hz, hzid, -, hzpid⟩ := h.owned c hc y.id hown.symm
      obtain rfl := eq_of_id h.ids hz hy hzid
      exact hne (eq_of_pid h.pids hd hc (hypid.symm.trans hzpid))
    exact ⟨y, hmem.mpr ⟨y, hy, by rw [if_neg hown]⟩, hyid, hyrun, hypid⟩
  · obtain ⟨y, hy, rfl⟩ := hmem.mp hx
    rw [(hsame y).2] at hstored
    rw [(hsame y).1]
    exact h.stored d (mem_of_mem_erase hd) y hy hstored
  · rcases mem_append.mp he with hold | hnew
    · exact h.log e hold
    · obtain rfl := mem_singleton.mp hnew
      exact rfl

theorem Owned.reap (pid : Nat) : Owned (reapProcess pid st) := by
  unfold reapProcess
  cases hfind : st.world.children.find? fun c => c.pid = pid ∧ c.exited = true with
  | none => exact h
  | some c =>
    have hc := mem_of_find?_eq_some hfind
    obtain ⟨hpid, -⟩ : c.pid = pid ∧ c.exited = true := by simpa using find?_some hfind
    subst hpid
    have howner := h.find_owner hc
    simp only [howner]
    cases hservice : initServiceFindByPid st.services c.pid with
    | none =>
      have hnone : c.owner = none := by rw [← howner, hservice]; rfl
      refine h.reaped hc ?_ rfl
      intro x
      simp [hnone]
    | some s =>
      have hsome : c.owner = some s.id := by rw [← howner, hservice]; rfl
      refine h.reaped hc ?_ ?_
      · intro x
        simp [hsome, eq_comm]
      rw [map_map]
      refine map_congr_left fun x _ => ?_
      simp only [Function.comp_apply]
      split
      · exact (initServiceReap_same x).1
      · rfl

theorem Owned.exit (pid : Nat) :
    Owned { st with world := { st.world with
      children := st.world.children.map fun c => if c.pid = pid then { c with exited := true } else c } } := by
  have hsame : ∀ c : Child, (if c.pid = pid then { c with exited := true } else c).pid = c.pid ∧
      (if c.pid = pid then { c with exited := true } else c).owner = c.owner := by
    intro c
    split <;> exact ⟨rfl, rfl⟩
  refine ⟨h.ids, ?_, fun s hs hrun => ?_, fun d hd id howner => ?_, fun d hd s hs hstored => ?_, h.log⟩
  · rw [map_map]
    have hpids : (st.world.children.map fun c => (if c.pid = pid then { c with exited := true } else c).pid) =
        st.world.children.map (·.pid) := map_congr_left fun c _ => (hsame c).1
    exact hpids ▸ h.pids
  · obtain ⟨c, hc, hpid, howner⟩ := h.running s hs hrun
    exact ⟨_, mem_map_of_mem hc, (hsame c).1.trans hpid, (hsame c).2.trans howner⟩
  · obtain ⟨c, hc, rfl⟩ := mem_map.mp hd
    obtain ⟨s, hs, hid, hrun, hpid⟩ := h.owned c hc id ((hsame c).2 ▸ howner)
    exact ⟨s, hs, hid, hrun, hpid.trans (hsame c).1.symm⟩
  · obtain ⟨c, hc, rfl⟩ := mem_map.mp hd
    rw [(hsame c).2]
    exact h.stored c hc s hs (hstored.trans (hsame c).1)

theorem Owned.command {pid : Nat} (hstored : ∀ s ∈ st.services, s.pid ≠ pid)
    (hfresh : ∀ c ∈ st.world.children, c.pid ≠ pid) :
    Owned { st with world := { st.world with children := st.world.children ++ [⟨pid, none, false⟩] } } := by
  refine ⟨h.ids, ?_, fun s hs hrun => ?_, fun c hc id howner => ?_, fun c hc s hs hpid => ?_, h.log⟩
  · rw [map_append, nodup_append]
    refine ⟨h.pids, nodup_singleton _, ?_⟩
    rintro p hp q hq rfl
    obtain ⟨c, hc, rfl⟩ := mem_map.mp hp
    exact hfresh c hc (by simpa using hq)
  · obtain ⟨c, hc, hcs⟩ := h.running s hs hrun
    exact ⟨c, mem_append_left _ hc, hcs⟩
  · rcases mem_append.mp hc with hc | hc
    · exact h.owned c hc id howner
    · rw [mem_singleton.mp hc] at howner
      cases howner
  · rcases mem_append.mp hc with hc | hc
    · exact h.stored c hc s hs hpid
    · rw [mem_singleton.mp hc] at hpid
      exact absurd hpid (hstored s hs)

/-- One step. -/
theorem Owned.after {a : Act} (ha : Careful st a) : Owned (act st a) := by
  cases a with
  | start id spawn now =>
    refine h.apply id (fun s w => (some (initServiceStart spawn now s w).1, (initServiceStart spawn now s w).2)) ?_
    refine fun s _ _ => start_effect now fun pid hpid => ?_
    subst hpid
    exact ha
  | stop id esrch now =>
    obtain ⟨rfl, hstop⟩ := ha
    refine h.apply id (fun s w => (some (initServiceStop false now s w).1, (initServiceStop false now s w).2)) ?_
    exact fun s hs hid => stop_effect now (hstop s hs hid)
  | refresh id choice now =>
    refine h.apply id _ fun s _ _ => refresh_effect now ha.1 fun pid hpid => ?_
    have hfresh := ha.2
    rw [hpid] at hfresh
    exact hfresh
  | command pid =>
    simp only [act]
    split
    · exact h
    · exact h.command ha.1 ha.2
  | exit pid => exact h.exit pid
  | reap pid => exact h.reap pid

end

/-! ## Runs -/

/-- The live processes of a service. -/
def liveOf (st : Services) (id : Nat) : List Child :=
  st.world.children.filter fun c => c.owner = some id ∧ c.exited = false

theorem Owned.liveOf_le (h : Owned st) (id : Nat) : (liveOf st id).length ≤ 1 := by
  have hnodup : (liveOf st id).Nodup := (h.pids.of_map _).filter _
  have hone : ∀ c ∈ liveOf st id, ∀ d ∈ liveOf st id, c = d := by
    intro c hc d hd
    simp only [liveOf, mem_filter, decide_eq_true_eq] at hc hd
    obtain ⟨x, hx, hxid, -, hxpid⟩ := h.owned c hc.1 id hc.2.1
    obtain ⟨y, hy, hyid, -, hypid⟩ := h.owned d hd.1 id hd.2.1
    obtain rfl := eq_of_id h.ids hx hy (hxid.trans hyid.symm)
    exact eq_of_pid h.pids hc.1 hd.1 (hxpid.symm.trans hypid)
  generalize liveOf st id = live at hnodup hone
  match live with
  | [] | [_] => simp
  | c :: d :: rest =>
    obtain rfl := hone c (by simp) d (by simp)
    simp at hnodup

/-- In every run whose steps are careful, signals go to children of the service that sends them,
exits are charged to the owner, and no service has two live processes. -/
theorem services_own_processes {services : List Service} (hids : (services.map (·.id)).Nodup)
    (hidle : ∀ s ∈ services, s.running = false) {acts : List Act}
    (hcareful : Meets act Careful ⟨services, ⟨[], []⟩⟩ acts) :
    let st := run act ⟨services, ⟨[], []⟩⟩ acts
    (∀ e ∈ st.world.log, e.Right) ∧ ∀ id, (liveOf st id).length ≤ 1 := by
  have hstart : Owned ⟨services, ⟨[], []⟩⟩ :=
    { ids := hids
      pids := nodup_nil
      running := fun s hs hrun => absurd ((hidle s hs).symm.trans hrun) (by simp)
      owned := fun c hc => absurd hc not_mem_nil
      stored := fun c hc => absurd hc not_mem_nil
      log := fun e he => absurd he not_mem_nil }
  have hend : Owned (run act ⟨services, ⟨[], []⟩⟩ acts) :=
    Transition.run_induct (fun st a h ha => h.after ha) hstart hcareful
  exact ⟨hend.log, hend.liveOf_le⟩

/-! ## A sample -/

/-- A service that was read from the configuration without options. -/
def Service.plain (id : Nat) : Service where
  id := id
  disabled := false
  oneshot := false
  running := false
  restarting := false
  gentleKill := false
  sigkill := false
  remove := false
  pid := 0
  timeStarted := 0
  timeKill := 0
  restartPeriod := 5000

instance : (e : Record) → Decidable e.Right
  | .signal service target =>
    decidable_of_iff (target.bind (·.owner) = some service) (by simp [Record.Right, Option.bind_eq_some_iff])
  | .reaped child service => inferInstanceAs (Decidable (service = child.owner))

/-- A service is stopped, started again by hand and its second process gets the id of the first
one. -/
theorem services_own_processes_restart :
    let acts := [Act.start 1 (.pid 5) 0, .stop 1 false 10, .exit 5, .reap 5, .start 1 (.pid 5) 20, .stop 1 false 30]
    let st := run act ⟨[.plain 1, .plain 2], ⟨[], []⟩⟩ acts
    st.world.log.length = 3 ∧ (∀ e ∈ st.world.log, e.Right) ∧ ∀ id, (liveOf st id).length ≤ 1 := by
  intro acts st
  have hcareful : Meets act Careful ⟨[.plain 1, .plain 2], ⟨[], []⟩⟩ acts := by decide
  obtain ⟨hlog, hlive⟩ := services_own_processes (by decide) (by decide) hcareful
  exact ⟨by decide, hlog, hlive⟩

/-- A service that waits for its restart signals a process that is not its own, an exit is charged
to a service that had the id before, and a service gets a second process while the first one
runs. -/
theorem not_services_own_processes :
    (∃ e ∈ (run act ⟨[.plain 1], ⟨[], []⟩⟩
      [.start 1 (.pid 5) 0, .exit 5, .reap 5, .command 5, .stop 1 false 10]).world.log, ¬ e.Right) ∧
    (∃ e ∈ (run act ⟨[.plain 1, .plain 2], ⟨[], []⟩⟩
      [.start 1 (.pid 5) 0, .exit 5, .reap 5, .start 2 (.pid 5) 10, .exit 5, .reap 5]).world.log, ¬ e.Right) ∧
    (liveOf (run act ⟨[.plain 1], ⟨[], []⟩⟩
      [.command 5, .exit 5, .start 1 (.pid 5) 0, .reap 5, .refresh 1 ⟨.pid 6, false⟩ 5000]) 1).length = 2 := by
  decide

end System.Nxinit
