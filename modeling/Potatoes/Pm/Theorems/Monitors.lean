import Mathlib
import Potatoes.Pm.Theorems.Kernel

-- The virtual monitors of the processes.

namespace Pm

open Circular

variable {s s' : State} {m m' : Machine} {p a b f head fuel n context i vm : Nat} {q q' : Process}
variable {c : Prop} {l ps ps' : List Nat}

def State.pid (s : State) (p : Nat) : Nat :=
  ((s.proc p).map (·.pid)).getD 0

def State.monitor (s : State) (p : Nat) : Nat :=
  ((s.proc p).map (·.vmonitor)).getD 0

theorem pid_of_some (h : s.proc p = some q) : s.pid p = q.pid := by
  rw [State.pid, h]
  rfl

theorem monitor_of_some (h : s.proc p = some q) : s.monitor p = q.vmonitor := by
  rw [State.monitor, h]
  rfl

-- The processes `ps` and the monitors up to `maxvmonitor` correspond to each other. Under the condition `c` the
-- process of the active monitor has the focus.
structure Tables (ps : List Nat) (c : Prop) (s : State) : Prop where
  pids    : ∀ p ∈ ps, ∀ p' ∈ ps, s.pid p = s.pid p' → p = p'
  max_lt  : s.maxvmonitor < 1000
  le      : ∀ p ∈ ps, s.monitor p ≤ s.maxvmonitor
  carries : ∀ p ∈ ps, s.vmonitors (s.monitor p) = s.pid p
  onto    : ∀ i ≤ s.maxvmonitor, ∃ p ∈ ps, s.monitor p = i
  active  : s.activeMonitor ≤ s.maxvmonitor
  focus   : c → ∃ f ∈ ps, s.focusProc = some f ∧ s.monitor f = s.activeMonitor

namespace Tables

theorem inj (t : Tables ps c s) {p'} (hp : p ∈ ps) (hp' : p' ∈ ps) (h : s.monitor p = s.monitor p') : p = p' := by
  refine t.pids p hp p' hp' ?_
  rw [← t.carries p hp, ← t.carries p' hp', h]

theorem of_mem_iff (t : Tables ps c s) (h : ∀ p, p ∈ ps' ↔ p ∈ ps) : Tables ps' c s := by
  have ⟨h₁, h₂, h₃, h₄, h₅, h₆, h₇⟩ := t
  simp only [← h] at h₁ h₃ h₄ h₅ h₇
  exact ⟨h₁, h₂, h₃, h₄, h₅, h₆, h₇⟩

theorem congr (t : Tables ps c s) (hpid : ∀ p ∈ ps, s'.pid p = s.pid p) (hmon : ∀ p ∈ ps, s'.monitor p = s.monitor p)
    (hv : s'.vmonitors = s.vmonitors) (hm : s'.maxvmonitor = s.maxvmonitor) (ha : s'.activeMonitor = s.activeMonitor)
    (hf : s'.focusProc = s.focusProc) : Tables ps c s' where
  pids p hp p' hp' h := t.pids p hp p' hp' <| hpid p hp ▸ hpid p' hp' ▸ h
  max_lt    := hm ▸ t.max_lt
  le p hp   := hmon p hp ▸ hm ▸ t.le p hp
  carries p hp := by rw [hv, hmon p hp, hpid p hp, t.carries p hp]
  onto i hi :=
    have ⟨p, hp, he⟩ := t.onto i <| hm ▸ hi
    ⟨p, hp, (hmon p hp).trans he⟩
  active    := ha ▸ hm ▸ t.active
  focus hc  :=
    have ⟨f, hf', hs, he⟩ := t.focus hc
    ⟨f, hf', hf.trans hs, (hmon f hf').trans <| ha ▸ he⟩

end Tables

-- `pm_get_proc` finds a process in the ring whose pid no other one has.
theorem wp_pmGetProc_of_mem {Q : Option Nat → State → Prop} {E : Fault → State → Prop} (hh : s.procsHead = some head)
    (hl : Loop s.next head ps) (hpids : ∀ p' ∈ head :: ps, s.pid p' = n → p' = p) (hp : p ∈ head :: ps)
    (hpid : s.pid p = n) (hQ : Q (some p) s) (hE : fuel ≤ ps.length → E .diverges s) : (pmGetProc fuel n).wp Q E s := by
  have hfrom {x k : Nat} {l : List Nat} (hx : Path s.next x l head) (hsub : ∀ y ∈ x :: l, y ∈ head :: ps)
      (hpx : p ∈ x :: l) (hhl : head ∉ l) (hk : k ≤ l.length → fuel ≤ ps.length) : (getProcFrom n k x).wp Q E s := by
    induction k generalizing x l
    case zero => exact hE <| hk <| Nat.zero_le _
    case succ k hi =>
      have ⟨y, hy⟩ := hx.isSome <| List.mem_cons_self ..
      have ⟨q, hq, _⟩ := exists_of_next hy
      rw [getProcFrom, Prog.wp_bind, wp_deref_some hq, Prog.wp_ite]
      by_cases hqp : q.pid = n
      case pos =>
        rw [if_pos hqp]
        cases hpids x (hsub x <| List.mem_cons_self ..) <| (pid_of_some hq).trans hqp
        exact hQ
      case neg =>
        have hne : p ≠ x := by
          rintro rfl
          exact hqp <| (pid_of_some hq).symm.trans hpid
        have hpl : p ∈ l := (List.mem_cons.mp hpx).resolve_left hne
        rw [if_neg hqp, Prog.wp_bind, Prog.wp_gets, hh, Prog.wp_ite]
        cases l with
        | nil      => exact absurd hpl List.not_mem_nil
        | cons z l =>
          cases (next_of_some hq).symm.trans hx.left
          have hz : ¬some q.next = some head := by
            intro he
            cases he
            exact hhl <| List.mem_cons_self ..
          rw [if_neg hz]
          exact hi hx.right (fun y hy => hsub y <| List.mem_cons_of_mem _ hy) hpl (mt (List.mem_cons_of_mem _) hhl)
            fun h => hk <| Nat.succ_le_succ h
  rw [pmGetProc, Prog.wp_bind, wp_pointer_some hh]
  exact hfrom hl.path (fun _ => id) hp (List.nodup_cons.mp hl.nodup).left id

-- The monitor of a process in the ring gets the focus.
theorem Tables.wp_focusMonitor {Q : Unit → State → Prop} {E : Fault → State → Prop} (t : Tables (head :: ps) c s)
    (hh : s.procsHead = some head) (hl : Loop s.next head ps) (hvm : vm ≤ s.maxvmonitor)
    (hQ : ∀ p ∈ head :: ps, s.monitor p = vm → Q () { s with focusProc := some p })
    (hE : fuel ≤ ps.length → ∀ e s', E e s') :
    (do pmSetFocusProc fuel (← vmonitor vm) : PmM Unit).wp Q E s := by
  have ⟨p, hp, he⟩ := t.onto vm hvm
  have hpid : s.pid p = s.vmonitors vm := he ▸ (t.carries p hp).symm
  rw [Prog.wp_bind, wp_vmonitor_of_lt <| hvm.trans_lt t.max_lt, pmSetFocusProc, Prog.wp_bind]
  refine wp_pmGetProc_of_mem hh hl (fun p' hp' h => t.pids p' hp' p hp <| h.trans hpid.symm) hp hpid ?_ (hE · _ _)
  rw [Prog.wp_modify]
  exact hQ p hp he

-- The last monitor takes the place of the monitor of `b`.
theorem Tables.shrink (t : Tables ps c s) (hb : b ∈ ps) (hps : ∀ p, p ∈ ps' ↔ p ∈ ps ∧ p ≠ b)
    (hpid : ∀ p ∈ ps', s'.pid p = s.pid p)
    (hmon : ∀ p ∈ ps', s'.monitor p = if s.monitor p = s.maxvmonitor then s.monitor b else s.monitor p)
    (hv : ∀ i < s.maxvmonitor, s'.vmonitors i = if i = s.monitor b then s.vmonitors s.maxvmonitor else s.vmonitors i)
    (hm : s'.maxvmonitor = s.maxvmonitor - 1) (ha : s'.activeMonitor < s.maxvmonitor)
    (hf : c → ∃ f ∈ ps', s'.focusProc = some f ∧ s'.monitor f = s'.activeMonitor) : Tables ps' c s' := by
  have hmem {p : Nat} (hp : p ∈ ps') : p ∈ ps ∧ s.monitor p ≠ s.monitor b :=
    have ⟨hp, hne⟩ := (hps p).mp hp
    ⟨hp, fun he => hne <| t.inj hp hb he⟩
  have hlt {p : Nat} (hp : p ∈ ps') : s'.monitor p < s.maxvmonitor := by
    have ⟨hp', hne⟩ := hmem hp
    have h₁ := t.le p hp'
    have h₂ := t.le b hb
    rw [hmon p hp]
    split <;> omega
  refine ⟨fun p hp p' hp' h => ?_, ?_, fun p hp => ?_, fun p hp => ?_, fun i hi => ?_, ?_, hf⟩
  · rw [hpid p hp, hpid p' hp'] at h
    exact t.pids p (hmem hp).left p' (hmem hp').left h
  · have := t.max_lt
    omega
  · have := hlt hp
    omega
  · have ⟨hp', hne⟩ := hmem hp
    rw [hv _ <| hlt hp, hmon p hp, hpid p hp, ← t.carries p hp']
    by_cases he : s.monitor p = s.maxvmonitor
    case pos => rw [if_pos he, if_pos rfl, he]
    case neg => rw [if_neg he, if_neg hne]
  · rw [hm] at hi
    by_cases he : i = s.monitor b
    case pos =>
      have ⟨z, hz, hzm⟩ := t.onto s.maxvmonitor le_rfl
      have hzb : z ≠ b := by
        rintro rfl
        omega
      have hz' := (hps z).mpr ⟨hz, hzb⟩
      exact ⟨z, hz', by rw [hmon z hz', if_pos hzm, he]⟩
    case neg =>
      have ⟨p, hp, hpi⟩ := t.onto i (by omega)
      have hpb : p ≠ b := by
        rintro rfl
        exact he hpi.symm
      have hp' := (hps p).mpr ⟨hp, hpb⟩
      exact ⟨p, hp', by rw [hmon p hp', if_neg (by omega), hpi]⟩
  · omega

-- Another process gets another monitor.
theorem Tables.grow (t : Tables (head :: ps) c s) (hp : ∀ y ∈ head :: ps, y ≠ p ∧ s.pid y ≠ n)
    (hmax : s.maxvmonitor + 1 < 1000)
    (hold : ∀ y ∈ head :: ps, s'.pid y = s.pid y ∧ s'.monitor y = s.monitor y)
    (hpid : s'.pid p = n) (hmon : s'.monitor p = s.maxvmonitor + 1)
    (hv : s'.vmonitors = Function.update s.vmonitors (s.maxvmonitor + 1) n) (hm : s'.maxvmonitor = s.maxvmonitor + 1)
    (ha : s'.activeMonitor = s.maxvmonitor + 1) (hf : s'.focusProc = some p) :
    Tables (head :: p :: ps) True s' := by
  have hcases {y : Nat} (hy : y ∈ head :: p :: ps) : y = p ∨ y ∈ head :: ps := by
    simp only [List.mem_cons] at hy ⊢
    tauto
  have hmem {y : Nat} (hy : y ∈ head :: ps) : y ∈ head :: p :: ps := by
    simp only [List.mem_cons] at hy ⊢
    tauto
  have hpm : p ∈ head :: p :: ps := by simp
  refine ⟨fun y hy z hz he => ?_, hm ▸ hmax, fun y hy => ?_, fun y hy => ?_, fun i hi => ?_, (ha.trans hm.symm).le,
    fun _ => ⟨p, hpm, hf, hmon.trans ha.symm⟩⟩
  · rcases hcases hy with hy' | hy' <;> rcases hcases hz with hz' | hz'
    · exact hy'.trans hz'.symm
    · rw [hy', hpid, (hold z hz').left] at he
      exact absurd he.symm (hp z hz').right
    · rw [hz', hpid, (hold y hy').left] at he
      exact absurd he (hp y hy').right
    · rw [(hold y hy').left, (hold z hz').left] at he
      exact t.pids y hy' z hz' he
  · rcases hcases hy with rfl | hy
    · exact (hmon.trans hm.symm).le
    · rw [(hold y hy).right, hm]
      exact Nat.le_succ_of_le <| t.le y hy
  · rcases hcases hy with rfl | hy
    · rw [hmon, hpid, hv, Function.update_self]
    · have hne : s.monitor y ≠ s.maxvmonitor + 1 := (Nat.lt_succ_of_le <| t.le y hy).ne
      rw [(hold y hy).right, (hold y hy).left, hv, Function.update_of_ne hne, t.carries y hy]
  · by_cases he : i = s.maxvmonitor + 1
    case pos => exact ⟨p, hpm, hmon.trans he.symm⟩
    case neg =>
      have ⟨y, hy, hyi⟩ := t.onto i (by omega)
      exact ⟨y, hmem hy, (hold y hy).right.trans hyi⟩

-- Besides the process that is removed there is the kernel process, and so another monitor.
theorem Tables.max_pos (t : Tables ps c s) (hb : b ∈ ps) (ha : a ∈ ps) (hne : a ≠ b) : 0 < s.maxvmonitor := by
  have h₁ := t.le a ha
  have h₂ := t.le b hb
  have h₃ : s.monitor a ≠ s.monitor b := fun he => hne <| t.inj ha hb he
  omega

-- The last monitor, which belongs to the process `z`, has moved into the gap that the process `b` leaves.
structure Relocated (b z : Nat) (s s' : State) : Prop where
  procsHead     : s'.procsHead = s.procsHead
  next          : s'.next = s.next
  pid           : s'.pid = s.pid
  monitor       : ∀ p, s'.monitor p = if p = z then s.monitor b else s.monitor p
  activeMonitor : s'.activeMonitor = if s.activeMonitor = s.maxvmonitor then s.monitor b else s.activeMonitor
  maxvmonitor   : s'.maxvmonitor = s.maxvmonitor
  vmonitors     : s'.vmonitors = Function.update s.vmonitors (s.monitor b) (s.vmonitors s.maxvmonitor)
  focusProc     : s'.focusProc = s.focusProc

theorem Relocated.of_setProc {z active : Nat} (hq : s.proc z = some q)
    (ha : active = if s.activeMonitor = s.maxvmonitor then s.monitor b else s.activeMonitor) :
    Relocated b z s <| State.setProc { s with
      activeMonitor := active
      vmonitors     := Function.update s.vmonitors (s.monitor b) (s.vmonitors s.maxvmonitor) } z <|
      some { q with vmonitor := s.monitor b } := by
  refine ⟨rfl, next_setProc hq rfl, funext fun p => ?_, fun p => ?_, ha, rfl, rfl, rfl⟩ <;> by_cases he : p = z
  · rw [he, pid_of_some State.setProc_self, pid_of_some hq]
  · rw [State.pid, State.setProc_of_ne he]; rfl
  · rw [he, monitor_of_some State.setProc_self, if_pos rfl]
  · rw [State.monitor, State.setProc_of_ne he, if_neg he]; rfl

section Gap

variable (t : Tables (head :: ps) c s) (hb : b ∈ head :: ps) (hps : ∀ p, p ∈ ps' ↔ p ∈ head :: ps ∧ p ≠ b)

include t hb hps

theorem Relocated.tables {z : Nat} {focus : Option Nat} (r : Relocated b z s s') (hz : z ∈ head :: ps)
    (hzm : s.monitor z = s.maxvmonitor) (hvm : s.monitor b ≠ s.maxvmonitor)
    (hf : c → ∃ f ∈ ps', focus = some f ∧ s'.monitor f = s'.activeMonitor) :
    Tables ps' c { s' with maxvmonitor := s.maxvmonitor - 1, focusProc := focus } := by
  have hlt : s'.activeMonitor < s.maxvmonitor := by
    have h₁ := t.active
    have h₂ := t.le b hb
    rw [r.activeMonitor]
    split <;> omega
  refine t.shrink hb hps (fun p _ => congrFun r.pid p) (fun p hp => ?_) (fun i _ => ?_) rfl hlt hf
  · have he : p = z ↔ s.monitor p = s.maxvmonitor := by
      constructor
      case mp  => exact fun he => he ▸ hzm
      case mpr => exact fun hm => t.inj ((hps p).mp hp).left hz <| hm.trans hzm.symm
    refine (r.monitor p).trans ?_
    simp only [he]
  · refine (congrFun r.vmonitors i).trans ?_
    rw [Function.update_apply]

variable (hh : s.procsHead = some head) (hl : Loop s.next head ps)

include hh hl

-- The monitor of the process is the last one.
theorem Tables.wp_closeGap_last (hne : head ≠ b) (hvm : s.monitor b = s.maxvmonitor) :
    (closeGap fuel (s.monitor b)).wp
      (fun _ s' => s'.maxvmonitor = s.maxvmonitor ∧ Tables ps' c { s' with maxvmonitor := s.maxvmonitor - 1 })
      (fun _ _ => fuel ≤ ps.length) s := by
  have hpos := t.max_pos hb (List.mem_cons_self ..) hne
  have hmax := t.max_lt
  have hmon : ∀ p ∈ ps', s.monitor p = if s.monitor p = s.maxvmonitor then s.monitor b else s.monitor p := by
    intro p hp
    have ⟨hp, hpb⟩ := (hps p).mp hp
    exact (if_neg fun he => hpb <| t.inj hp hb <| he.trans hvm.symm).symm
  have hv : ∀ i < s.maxvmonitor, s.vmonitors i =
      if i = s.monitor b then s.vmonitors s.maxvmonitor else s.vmonitors i :=
    fun i hi => (if_neg <| hvm ▸ hi.ne).symm
  rw [closeGap, Prog.wp_bind, Prog.wp_gets, Prog.wp_bind, Prog.wp_gets, Prog.wp_ite, if_pos hvm, Prog.wp_ite]
  by_cases ha : s.activeMonitor = s.maxvmonitor
  case pos =>
    have hmod : (s.activeMonitor + (2 ^ 16 - 1)) % 2 ^ 16 = s.maxvmonitor - 1 := by omega
    rw [if_pos ha, Prog.wp_bind, Prog.wp_modify, Prog.wp_bind, Prog.wp_gets, hmod]
    have t₁ : Tables (head :: ps) False { s with activeMonitor := s.maxvmonitor - 1 } :=
      ⟨t.pids, t.max_lt, t.le, t.carries, t.onto, Nat.sub_le .., fun h => by cases h⟩
    refine t₁.wp_focusMonitor hh hl (Nat.sub_le ..) (fun p hp hpm => ⟨rfl, ?_⟩) fun hf _ _ => hf
    have hpm : s.monitor p = s.maxvmonitor - 1 := hpm
    have hpb : p ≠ b := by
      rintro rfl
      omega
    exact t.shrink hb hps (fun _ _ => rfl) hmon hv rfl (Nat.sub_lt hpos Nat.one_pos) fun _ =>
      ⟨p, (hps p).mpr ⟨hp, hpb⟩, rfl, hpm⟩
  case neg =>
    rw [if_neg ha]
    refine ⟨rfl, t.shrink hb hps (fun _ _ => rfl) hmon hv rfl (Nat.lt_of_le_of_ne t.active ha) fun hc => ?_⟩
    obtain ⟨f, hf, hfs, hfm⟩ := t.focus hc
    have hfb : f ≠ b := by
      rintro rfl
      exact ha <| hfm.symm.trans hvm
    exact ⟨f, (hps f).mpr ⟨hf, hfb⟩, hfs, hfm⟩

-- The process whose monitor has moved gets the focus if the monitor in the gap was the active one.
theorem Relocated.wp_focus {z : Nat} (r : Relocated b z s s') (hz : z ∈ head :: ps)
    (hzm : s.monitor z = s.maxvmonitor) (hvm : s.monitor b ≠ s.maxvmonitor) :
    (if s.activeMonitor ≠ s.maxvmonitor ∧ s.activeMonitor = s.monitor b then do
        pmSetFocusProc fuel (← vmonitor (s.monitor b))
      else
        return () : PmM Unit).wp
      (fun _ s' => s'.maxvmonitor = s.maxvmonitor ∧ Tables ps' c { s' with maxvmonitor := s.maxvmonitor - 1 })
      (fun _ _ => fuel ≤ ps.length) s' := by
  have hzb : z ≠ b := by
    rintro rfl
    exact hvm hzm
  rw [Prog.wp_ite]
  split
  case isTrue hc =>
    have hzpid : s'.pid z = s'.vmonitors (s.monitor b) := by
      rw [r.pid, r.vmonitors, Function.update_self, ← hzm, t.carries z hz]
    rw [Prog.wp_bind, wp_vmonitor_of_lt <| (t.le b hb).trans_lt t.max_lt, pmSetFocusProc, Prog.wp_bind]
    refine wp_pmGetProc_of_mem (r.procsHead.trans hh) (r.next ▸ hl) (fun p' hp' h => ?_) hz hzpid ?_ id
    · exact t.pids p' hp' z hz <| r.pid ▸ h.trans hzpid.symm
    · rw [Prog.wp_modify]
      refine ⟨r.maxvmonitor, r.tables t hb hps hz hzm hvm fun _ => ⟨z, (hps z).mpr ⟨hz, hzb⟩, rfl, ?_⟩⟩
      rw [r.monitor, if_pos rfl, r.activeMonitor, if_neg hc.left, hc.right]
  case isFalse hc =>
    refine ⟨r.maxvmonitor, r.tables t hb hps hz hzm hvm fun hcc => ?_⟩
    obtain ⟨f, hf, hfs, hfm⟩ := t.focus hcc
    have hfb : f ≠ b := by
      rintro rfl
      by_cases ha : s.activeMonitor = s.maxvmonitor
      case pos => exact hvm <| hfm.trans ha
      case neg => exact hc ⟨ha, hfm.symm⟩
    have hfz : f = z ↔ s.activeMonitor = s.maxvmonitor := by
      rw [← hfm]
      constructor
      case mp  => exact fun he => he ▸ hzm
      case mpr => exact fun hm => t.inj hf hz <| hm.trans hzm.symm
    refine ⟨f, (hps f).mpr ⟨hf, hfb⟩, r.focusProc.trans hfs, ?_⟩
    rw [r.monitor, r.activeMonitor, hfm]
    simp only [hfz]

-- The monitor of the process is not the last one, so that the last one moves.
theorem Tables.wp_closeGap_moved (hvm : s.monitor b ≠ s.maxvmonitor) :
    (closeGap fuel (s.monitor b)).wp
      (fun _ s' => s'.maxvmonitor = s.maxvmonitor ∧ Tables ps' c { s' with maxvmonitor := s.maxvmonitor - 1 })
      (fun _ _ => fuel ≤ ps.length) s := by
  obtain ⟨z, hz, hzm⟩ := t.onto s.maxvmonitor le_rfl
  have hzpid : s.pid z = s.vmonitors s.maxvmonitor := hzm ▸ (t.carries z hz).symm
  obtain ⟨y, hy⟩ := hl.path.isSome hz
  obtain ⟨q, hq, _⟩ := exists_of_next hy
  rw [closeGap, Prog.wp_bind, Prog.wp_gets, Prog.wp_bind, Prog.wp_gets, Prog.wp_ite, if_neg hvm, Prog.wp_bind,
    Prog.wp_modify]
  -- The active monitor, as far as it is the one that moves.
  obtain ⟨active, ha⟩ : ∃ n, n = if s.activeMonitor = s.maxvmonitor then s.monitor b else s.activeMonitor := ⟨_, rfl⟩
  have hs₁ : (if s.activeMonitor = s.maxvmonitor then { s with activeMonitor := s.monitor b } else s) =
      { s with activeMonitor := active } := by
    rw [ha]
    split <;> rfl
  rw [hs₁, Prog.wp_bind, wp_vmonitor_of_lt t.max_lt, Prog.wp_bind,
    wp_setVmonitor_of_lt <| (t.le b hb).trans_lt t.max_lt, Prog.wp_bind]
  refine wp_pmGetProc_of_mem hh hl (fun p' hp' h => t.pids p' hp' z hz <| h.trans hzpid.symm) hz hzpid ?_ id
  simp only []
  rw [Prog.wp_bind]
  let s₂ := { s with
    activeMonitor := active
    vmonitors     := Function.update s.vmonitors (s.monitor b) (s.vmonitors s.maxvmonitor) }
  refine (wp_modifyProc_some (s := s₂) hq).mpr ?_
  exact Relocated.wp_focus t hb hps hh hl (.of_setProc hq ha) hz hzm hvm

end Gap

theorem Tables.wp_closeGap (t : Tables (head :: ps) c s) (hh : s.procsHead = some head) (hl : Loop s.next head ps)
    (hb : b ∈ head :: ps) (hne : head ≠ b) (hps : ∀ p, p ∈ ps' ↔ p ∈ head :: ps ∧ p ≠ b) :
    (closeGap fuel (s.monitor b)).wp
      (fun _ s' => s'.maxvmonitor = s.maxvmonitor ∧ Tables ps' c { s' with maxvmonitor := s.maxvmonitor - 1 })
      (fun _ _ => fuel ≤ ps.length) s := by
  by_cases hvm : s.monitor b = s.maxvmonitor
  case pos => exact t.wp_closeGap_last hb hps hh hl hne hvm
  case neg => exact t.wp_closeGap_moved hb hps hh hl hvm

theorem Tables.wp_freeVirtMonitor (fuel : Nat) (t : Tables (head :: ps) c s) (hh : s.procsHead = some head)
    (hl : Loop s.next head ps) (hb : b ∈ head :: ps) (hne : head ≠ b) (hps : ∀ p, p ∈ ps' ↔ p ∈ head :: ps ∧ p ≠ b) :
    (freeVirtMonitor fuel (s.monitor b)).wp (fun _ => Tables ps' c) (fun _ _ => fuel ≤ ps.length) s := by
  have hpos := t.max_pos hb (List.mem_cons_self ..) hne
  have hmax := t.max_lt
  rw [freeVirtMonitor, Prog.wp_bind]
  refine Prog.wp_post (t.wp_closeGap hh hl hb hne hps) fun _ s' hc => ?_
  obtain ⟨hm, t'⟩ := hc
  rw [Prog.wp_bind, Prog.wp_gets, Prog.wp_bind, wp_setVmonitor_of_lt <| hm ▸ hmax, Prog.wp_modify]
  have hmod : (s'.maxvmonitor + (2 ^ 16 - 1)) % 2 ^ 16 = s.maxvmonitor - 1 := by omega
  refine ⟨t'.pids, hmod ▸ t'.max_lt, fun p hp => hmod ▸ t'.le p hp, fun p hp => ?_, fun i hi => t'.onto i <| hmod ▸ hi,
    hmod ▸ t'.active, t'.focus⟩
  have hle : s'.monitor p ≤ s.maxvmonitor - 1 := t'.le p hp
  refine Eq.trans (Function.update_of_ne ?_ ..) (t'.carries p hp)
  have hmon : s'.monitor p ≠ s'.maxvmonitor := by omega
  exact hmon

-- The processes of the ring and the monitors correspond to each other.
structure Monitored (head : Nat) (c : Prop) (s : State) : Prop extends Immortal head s where
  tables : ∀ ps, Loop s.next head ps → Tables (head :: ps) c s

-- What the tables depend on is the same.
structure SameTables (s s' : State) : Prop where
  next          : s'.next = s.next
  pid           : s'.pid = s.pid
  monitor       : s'.monitor = s.monitor
  vmonitors     : s'.vmonitors = s.vmonitors
  maxvmonitor   : s'.maxvmonitor = s.maxvmonitor
  activeMonitor : s'.activeMonitor = s.activeMonitor
  focusProc     : s'.focusProc = s.focusProc

namespace SameTables

theorem refl : SameTables s s :=
  ⟨rfl, rfl, rfl, rfl, rfl, rfl, rfl⟩

theorem trans {s₀} (h : SameTables s₀ s) (h' : SameTables s s') : SameTables s₀ s' :=
  ⟨h'.next.trans h.next, h'.pid.trans h.pid, h'.monitor.trans h.monitor, h'.vmonitors.trans h.vmonitors,
    h'.maxvmonitor.trans h.maxvmonitor, h'.activeMonitor.trans h.activeMonitor, h'.focusProc.trans h.focusProc⟩

theorem setProc (hp : s.proc p = some q) (hn : q'.next = q.next) (hpid : q'.pid = q.pid)
    (hvm : q'.vmonitor = q.vmonitor) : SameTables s (s.setProc p <| some q') := by
  refine ⟨next_setProc hp hn, funext fun a => ?_, funext fun a => ?_, rfl, rfl, rfl, rfl⟩ <;> by_cases he : a = p
  · rw [he, pid_of_some State.setProc_self, pid_of_some hp, hpid]
  · rw [State.pid, State.setProc_of_ne he]; rfl
  · rw [he, monitor_of_some State.setProc_self, monitor_of_some hp, hvm]
  · rw [State.monitor, State.setProc_of_ne he]; rfl

theorem modifyProc {f : Process → Process} {s₀ : State} (h : SameTables s₀ s)
    (hf : ∀ q, (f q).next = q.next ∧ (f q).pid = q.pid ∧ (f q).vmonitor = q.vmonitor) :
    (modifyProc p f).wp (fun _ => SameTables s₀) (fun _ _ => True) s :=
  wp_modifyProc (fun q hp => h.trans <| .setProc hp (hf q).left (hf q).right.left (hf q).right.right) fun _ => trivial

end SameTables

namespace Monitored

theorem of_same (h : Monitored head c s) (hi : Immortal head s') (hs : SameTables s s') : Monitored head c s' where
  toImmortal   := hi
  tables ps hl := (h.tables ps <| hs.next ▸ hl).congr (fun p _ => congrFun hs.pid p) (fun p _ => congrFun hs.monitor p)
    hs.vmonitors hs.maxvmonitor hs.activeMonitor hs.focusProc

theorem wp_of_same {α : Type} {r : PmM α} (h : Monitored head c s) {F : State → Prop}
    (hi : r.wp (fun _ => Immortal head) (fun _ => F) s) (hs : r.wp (fun _ => SameTables s) (fun _ _ => True) s) :
    r.wp (fun _ => Monitored head c) (fun _ _ => True) s :=
  Prog.wp_mono (Prog.wp_and hi hs) (fun _ _ ⟨hi, hs⟩ => h.of_same hi hs) fun _ _ _ => trivial

theorem setProc (h : Monitored head c s) (hp : s.proc p = some q) (hn : q'.next = q.next)
    (hpid : q'.pid = q.pid) (hvm : q'.vmonitor = q.vmonitor) (hs : q.state ≠ .dead → q'.state ≠ .dead) :
    Monitored head c (s.setProc p <| some q') :=
  h.of_same (h.toImmortal.setProc hp hn fun _ => ⟨hpid, hs⟩) <| .setProc hp hn hpid hvm

theorem destroy (h : Monitored head c s) (ha : s.activeProc = some a) (hq : s.proc a = some q)
    (hq' : s.proc q.next = some q') (hd : q'.state = .dead) :
    (do pmDestroyThread fuel q.next; modifyProc a fun p => { p with next := q'.next } : PmM Unit).wp
      (fun _ => Monitored head c) (fun _ _ => True) s := by
  have hi := h.toImmortal
  have hne := hi.head_ne hq' hd
  have ⟨ps, hl, b, hb, hbn⟩ := (hi.switched ha hq).ring
  cases hbn
  have t : Tables (head :: ps) c { s with destroyed := q.next :: s.destroyed } :=
    (h.tables ps hl).congr (fun _ _ => rfl) (fun _ _ => rfl) rfl rfl rfl rfl
  have hmon : State.monitor { s with destroyed := q.next :: s.destroyed } q.next = q'.vmonitor := monitor_of_some hq'
  have hps (p : Nat) : p ∈ (head :: ps).filter (· ≠ q.next) ↔ p ∈ head :: ps ∧ p ≠ q.next := by
    rw [List.mem_filter, decide_eq_true_iff]
  refine wp_destroy hq hq' (hi.active_ne ha hq hq' hd) ?_
  have hfree := t.wp_freeVirtMonitor fuel hi.procsHead hl hb hne hps
  rw [hmon] at hfree
  refine Prog.wp_mono (Prog.wp_and hfree <| wp_freeVirtMonitor .refl) (fun _ s₂ ⟨t₂, hc⟩ q₂ hq₂ => ?_) fun _ _ _ => trivial
  have ⟨hi₃, hring⟩ := hi.removed ha hq hq' hd hc hq₂
  refine ⟨hi₃, fun ps₃ hl₃ => ?_⟩
  have ⟨ps', hl', hps'⟩ := hring ps hl
  cases hl₃.unique hl'
  have hmem {p : Nat} (hp : p ∈ head :: ps₃) : p ∈ (head :: ps).filter (· ≠ q.next) := (hps p).mpr <| (hps' p).mp hp
  have hsame {p : Nat} (hp : p ∈ (head :: ps).filter (· ≠ q.next)) {α : Type} (f : Process → α)
      (hf : ∀ n, f { q₂ with next := n } = f q₂) :
      (((s₂.setProc q.next none).setProc a <| some { q₂ with next := q'.next }).proc p).map f = (s₂.proc p).map f := by
    by_cases hpa : p = a
    case pos => rw [hpa, State.setProc_self, hq₂, Option.map_some, Option.map_some, hf]
    case neg => rw [State.setProc_of_ne hpa, State.setProc_of_ne ((hps p).mp hp).right]
  have t₃ : Tables ((head :: ps).filter (· ≠ q.next)) c
      ((s₂.setProc q.next none).setProc a <| some { q₂ with next := q'.next }) :=
    t₂.congr (fun p hp => congrArg (·.getD 0) <| hsame hp (·.pid) fun _ => rfl)
      (fun p hp => congrArg (·.getD 0) <| hsame hp (·.vmonitor) fun _ => rfl) rfl rfl rfl rfl
  exact t₃.of_mem_iff fun p => (hps' p).trans (hps p).symm

theorem stable : Stable fuel (Monitored head c) (fun _ => True) where
  fault _ _                      := trivial
  touch _ _ _ _ _ h hp           := h.setProc hp rfl rfl rfl id
  switch _ _ _ h ha hq           := h.of_same (h.toImmortal.switched ha hq) ⟨rfl, rfl, rfl, rfl, rfl, rfl, rfl⟩
  destroy _ _ _ _ h ha hq hq' hd := h.destroy ha hq hq' hd

-- The conditions under which a new process is created.
theorem wp_pmCreateThread (h : Monitored head False s) {pft : Fs.ProcFileTable} (hp : s.proc p = none)
    (hmax : s.maxvmonitor + 1 < 1000) (hpid : ∀ p q, s.proc p = some q → q.pid ≠ s.nextPid) :
    (pmCreateThread (some p) context pft).wp (fun _ => Monitored head True) (fun _ _ => True) s := by
  have hi := h.toImmortal
  obtain ⟨ps, hl, _⟩ := hi.ring
  obtain ⟨k, hk, _⟩ := hi.kernel
  have t := h.tables ps hl
  have hnew {y : Nat} (hy : y ∈ head :: ps) : y ≠ p := by
    rintro rfl
    obtain ⟨z, hz⟩ := hl.path.isSome hy
    simp [State.next, hp] at hz
  have hne : head ≠ p := hnew <| List.mem_cons_self ..
  refine Prog.wp_mono (Prog.wp_and (hi.wp_pmCreateThread fun p' he => by cases he; exact hp) <|
    Immortal.wp_pmCreateThread_some (E := fun _ _ => True) (Q := fun _ s' =>
      ∃ ps', Loop s'.next head ps' ∧ Tables (head :: ps') True s') hi.procsHead hk hne fun q hqp hqn => ?_)
    (fun _ s' h => ⟨h.left, fun ps₂ hl₂ => by
      obtain ⟨ps', hl', t'⟩ := h.right
      cases hl₂.unique hl'
      exact t'⟩) fun _ _ _ => trivial
  obtain ⟨_, hl₁⟩ := hi.inserted (n := (s.nextPid + 1) % 2 ^ 32) hp hk hl hqn
  generalize hs₁ : State.setProc _ head _ = s₁ at hl₁
  have hq₁ : s₁.proc p = some q := by
    subst hs₁
    exact (State.setProc_of_ne hne.symm).trans (Function.update_self ..)
  have hold : ∀ y ∈ head :: ps, s₁.pid y = s.pid y ∧ s₁.monitor y = s.monitor y := by
    intro y hy
    subst hs₁
    by_cases he : y = head
    case pos =>
      rw [he, pid_of_some State.setProc_self, monitor_of_some State.setProc_self, pid_of_some hk, monitor_of_some hk]
      exact ⟨rfl, rfl⟩
    case neg =>
      rw [State.pid, State.monitor, State.setProc_of_ne he]
      dsimp only
      rw [Function.update_of_ne (hnew hy)]
      exact ⟨rfl, rfl⟩
  have hv : s₁.vmonitors = s.vmonitors := by
    subst hs₁
    rfl
  have hm : s₁.maxvmonitor = s.maxvmonitor := by
    subst hs₁
    rfl
  have hf : s₁.focusProc = some p := by
    subst hs₁
    rfl
  have hmod : (s₁.maxvmonitor + 1) % 2 ^ 16 = s.maxvmonitor + 1 := by omega
  rw [Prog.wp_bind, startVmonitor, Prog.wp_bind, Prog.wp_modify, Prog.wp_bind, Prog.wp_gets, newVirtMonitor, hmod,
    Prog.wp_bind]
  refine wp_setVmonitor (fun _ => ?_) trivial
  rw [Prog.wp_bind, Prog.wp_modify, Prog.wp_gets, Prog.wp_bind]
  let s₂ := { s₁ with
    maxvmonitor   := s.maxvmonitor + 1
    vmonitors     := Function.update s₁.vmonitors (s.maxvmonitor + 1) s.nextPid
    activeMonitor := s.maxvmonitor + 1 }
  have hn : (s₂.setProc p <| some { q with vmonitor := s.maxvmonitor + 1 }).next = s₁.next :=
    next_setProc (s := s₂) hq₁ rfl
  refine (wp_modifyProc_some (s := s₂) hq₁).mpr ?_
  rw [Prog.wp_return]
  refine ⟨p :: ps, hl₁.congr fun y _ => congrFun hn y, ?_⟩
  refine t.grow (fun y hy => ⟨hnew hy, fun he => ?_⟩) hmax (fun y hy => ?_) ((pid_of_some State.setProc_self).trans hqp)
    (monitor_of_some State.setProc_self) (hv ▸ rfl) rfl rfl hf
  · obtain ⟨q', hq', _⟩ := exists_of_next (hl.path.isSome hy).choose_spec
    exact hpid y q' hq' <| (pid_of_some hq').symm.trans he
  · rw [State.pid, State.monitor, State.setProc_of_ne (hnew hy)]
    exact hold y hy

theorem mono {c' : Prop} (h : Monitored head c s) (hc : c' → c) : Monitored head c' s :=
  ⟨h.toImmortal, fun ps hl =>
    have ⟨h₁, h₂, h₃, h₄, h₅, h₆, h₇⟩ := h.tables ps hl
    ⟨h₁, h₂, h₃, h₄, h₅, h₆, h₇ ∘ hc⟩⟩

-- The focus goes to the process of another monitor.
theorem wp_focusMonitor (h : Monitored head c s) {act : Nat} (ha : act ≤ s.maxvmonitor) :
    (do pmSetFocusProc fuel (← vmonitor act) : PmM Unit).wp (fun _ => Monitored head c) (fun _ _ => True)
      { s with activeMonitor := act } := by
  have ⟨ps, hl, _⟩ := h.ring
  have t := h.tables ps hl
  have t' : Tables (head :: ps) False { s with activeMonitor := act } :=
    ⟨t.pids, t.max_lt, t.le, t.carries, t.onto, ha, nofun⟩
  refine t'.wp_focusMonitor h.procsHead hl ha (fun p hp hm => ⟨h.of_monitors, fun ps' hl' => ?_⟩) fun _ _ _ => trivial
  cases hl'.unique hl
  exact ⟨t.pids, t.max_lt, t.le, t.carries, t.onto, ha, fun _ => ⟨p, hp, rfl, hm⟩⟩

theorem wp_irq (h : Monitored head c s) {i : Irq} :
    (i.run fuel).wp (fun _ => Monitored head c) (fun _ _ => True) s := by
  have ⟨ps, hl, _⟩ := h.ring
  have hact := (h.tables ps hl).active
  cases i with
  | timer context =>
    rw [Irq.run, Prog.wp_bind]
    exact stable.wp_pmSchedule h
  | key ch =>
    refine h.wp_of_same h.toImmortal.wp_irq ?_
    rw [Irq.run, pmHandleInput, Prog.wp_bind, Prog.wp_gets]
    cases s.focusProc with
    | none   => exact .refl
    | some p =>
      simp only []
      rw [Prog.wp_bind]
      exact Prog.wp_post (SameTables.refl.modifyProc fun _ => ⟨rfl, rfl, rfl⟩) fun _ _ h =>
        h.modifyProc fun _ => ⟨rfl, rfl, rfl⟩
  | monitorUp =>
    rw [Irq.run, switchMonitorUp, Prog.wp_bind, Prog.wp_modify, Prog.wp_bind, Prog.wp_gets]
    split
    case isTrue hlt => exact h.wp_focusMonitor hlt
    case isFalse hle =>
      rw [if_pos <| hact.antisymm <| Nat.not_lt.mp hle]
      exact h.wp_focusMonitor (Nat.zero_le _)
  | monitorDown =>
    rw [Irq.run, switchMonitorDown, Prog.wp_bind, Prog.wp_modify, Prog.wp_bind, Prog.wp_gets]
    split
    · exact h.wp_focusMonitor <| (Nat.sub_le ..).trans hact
    · exact h.wp_focusMonitor le_rfl
  | other => exact h

end Monitored

def Event.Creates : Event → Prop
  | .call (.create _ _ _) => True
  | _                     => False

-- The kernel process is not killed, and there are fewer monitors than `vmonitors` holds.
def Event.Fits (s : State) : Event → Prop
  | .call (.create _ _ _) => s.maxvmonitor + 1 < numVmonitorLimit
  | .call (.kill pid)     => pid % 2 ^ 32 ≠ 0
  | _                     => True

-- The pid of a new process is not that of an existing one.
def Event.Distinct (s : State) : Event → Prop
  | .call (.create _ _ _) => ∀ p q, s.proc p = some q → q.pid ≠ s.nextPid
  | _                     => True

namespace Monitored

theorem wp_call (h : Monitored head c s) {k : Call} (ha : k.Allowed s) (he : (Event.call k).Fits s)
    (hd : (Event.call k).Distinct s) :
    (k.run fuel).wp (fun _ => Monitored head (c ∨ (Event.call k).Creates)) (fun _ _ => True) s := by
  have hc (h : (k.run fuel).wp (fun _ => Monitored head c) (fun _ _ => True) s) (hn : ¬(Event.call k).Creates) :
      (k.run fuel).wp (fun _ => Monitored head (c ∨ (Event.call k).Creates)) (fun _ _ => True) s :=
    Prog.wp_post h fun _ _ h => h.mono (·.resolve_right hn)
  have hsame := SameTables.refl (s := s)
  cases k with
  | create p context pft =>
    cases p with
    | none   => exact trivial
    | some p =>
      rw [Call.run, Prog.wp_bind]
      refine Prog.wp_post ((h.mono False.elim).wp_pmCreateThread ha he hd) fun _ _ h => ?_
      exact Prog.wp_return.mpr <| h.mono fun _ => trivial
  | exit =>
    refine hc (h.wp_of_same (h.toImmortal.wp_call trivial trivial) ?_) id
    rw [Call.run, sysExit, Prog.wp_bind]
    refine wp_pointer (fun p _ => ?_) fun _ => trivial
    rw [Prog.wp_bind]
    refine wp_deref (fun q hp => ?_) fun _ => trivial
    rw [Prog.wp_ite]
    split
    · exact trivial
    · exact hsame.modifyProc fun _ => ⟨rfl, rfl, rfl⟩
  | kill pid =>
    refine hc (h.wp_of_same (h.toImmortal.wp_call trivial he) ?_) id
    rw [Call.run, sysKill, pmKillProc, Prog.wp_bind]
    exact wp_pmGetProc (fun _ _ _ _ => hsame.modifyProc fun _ => ⟨rfl, rfl, rfl⟩) hsame fun _ _ => trivial
  | setPriority pid prio =>
    refine hc (h.wp_of_same (h.toImmortal.wp_call trivial trivial) ?_) id
    rw [Call.run, pmSetThreadPriority, Prog.wp_bind]
    exact wp_pmGetProc (fun _ _ _ _ => hsame.modifyProc fun _ => ⟨rfl, rfl, rfl⟩) hsame fun _ _ => trivial
  | writeStdin buf =>
    refine hc (h.wp_of_same (h.toImmortal.wp_call trivial trivial) ?_) id
    rw [Call.run, Prog.wp_bind]
    exact wp_pointer (fun _ _ => hsame.modifyProc fun _ => ⟨rfl, rfl, rfl⟩) fun _ => trivial
  | other => exact h.mono (·.resolve_right id)

theorem boot : Monitored head False (boot head).pm := by
  have ⟨q, hq, hpid, _, hn, hvm, _⟩ := boot_kernel (p := head)
  refine ⟨.boot, fun ps hl => ?_⟩
  have hl' : Loop (Pm.boot head).pm.next head [] :=
    ⟨(next_of_some hq).trans <| congrArg some hn, List.nodup_singleton _⟩
  cases hl.unique hl'
  have hmem {p : Nat} (hp : p ∈ [head]) : (Pm.boot head).pm.proc p = some q := List.mem_singleton.mp hp ▸ hq
  refine ⟨fun p hp p' hp' _ => ?_, (by decide : 0 < 1000), fun p hp => ?_, fun p hp => ?_, fun i hi => ⟨head, by simp, ?_⟩, le_rfl,
    nofun⟩
  · exact (List.mem_singleton.mp hp).trans (List.mem_singleton.mp hp').symm
  · exact ((monitor_of_some <| hmem hp).trans hvm).le.trans (Nat.zero_le _)
  · rw [monitor_of_some <| hmem hp, pid_of_some <| hmem hp, hvm, hpid]
    rfl
  · exact (monitor_of_some hq).trans <| hvm.trans (Nat.le_zero.mp hi).symm

theorem step {e : Event} (h : Monitored head c m.pm) (he : e.Fits m.pm) (hd : e.Distinct m.pm)
    (hs : Step m e m') :
    Monitored head (c ∨ e.Creates) m'.pm := by
  cases hs with
  | call _ _ _ ha hr       => exact Prog.wp_ok (h.wp_call ha he hd) hr
  | read                   => exact h.mono (·.resolve_right id)
  | irq _ hr               => exact (Prog.wp_ok h.wp_irq hr).mono (·.resolve_right id)
  | resume _ _ hp hres     =>
    refine Monitored.mono ?_ (·.resolve_right id)
    cases hres with
    | sleep => exact h.setProc hp rfl rfl rfl fun _ => nofun
    | read  => exact h.setProc hp rfl rfl rfl id
    | short | ready | inFocus | noFocus | halt | retest => exact h

theorem steps {es : List Event} (h : Monitored head c m.pm)
    (hs : Lts.Steps (Lts.When Step fun m e => e.Fits m.pm ∧ e.Distinct m.pm) m es m') :
    Monitored head (c ∨ ∃ e ∈ es, e.Creates) m'.pm := by
  induction hs generalizing c
  case refl         => exact h.mono (·.resolve_right nofun)
  case step hs _ hi =>
    refine (hi <| h.step hs.left.left hs.left.right hs.right).mono ?_
    simp only [List.mem_cons, exists_eq_or_imp]
    tauto

end Monitored

-- The processes of the ring correspond to the virtual monitors up to `maxvmonitor`, and the process of the active
-- monitor has the focus.
def State.Bijective (head : Nat) (s : State) : Prop :=
  ∃ ps, s.procsHead = some head ∧ Loop s.next head ps ∧
    Set.BijOn s.monitor { p | p ∈ head :: ps } { i | i ≤ s.maxvmonitor } ∧
    (∀ p ∈ head :: ps, s.vmonitors (s.monitor p) = s.pid p) ∧
    s.activeMonitor ≤ s.maxvmonitor ∧
    ∃ f ∈ head :: ps, s.focusProc = some f ∧ s.pid f = s.vmonitors s.activeMonitor

theorem Monitored.bijective (h : Monitored head True s) : s.Bijective head := by
  have ⟨ps, hl, _⟩ := h.ring
  have t := h.tables ps hl
  have ⟨f, hf, hfs, hfm⟩ := t.focus trivial
  exact ⟨ps, h.procsHead, hl, ⟨t.le, fun _ hp _ hp' => t.inj hp hp', t.onto⟩, t.carries, t.active, f, hf, hfs,
    hfm ▸ (t.carries f hf).symm⟩

-- From the first creation of a process on, and as long as the pids of the processes differ, the processes and the
-- virtual monitors correspond to each other.
theorem monitors_bijective {es : List Event}
    (h : Lts.Steps (Lts.When Step fun m e => e.Fits m.pm ∧ e.Distinct m.pm) (boot head) es m) (hc : ∃ e ∈ es, e.Creates) : m.pm.Bijective head :=
  ((Monitored.boot.steps h).mono fun _ => .inr hc).bijective

-- A process in the background is killed and destroyed, while another one has the focus.
theorem monitors_bijective_kill :
    ∃ m, Lts.Steps (Lts.When Step fun m e => e.Fits m.pm ∧ e.Distinct m.pm) (boot 0)
      [.call (.create (some 1) 0 fun _ => ⟨0, 0, 0⟩), .call (.create (some 2) 0 fun _ => ⟨0, 0, 0⟩), .call (.kill 1),
        .irq (.timer 0), .irq (.timer 0), .irq .monitorUp] m ∧ m.pm.destroyed = [1] ∧ m.pm.Bijective 0 := by
  have ⟨m, hs, hd⟩ : ∃ m, Lts.Steps (Lts.When Step fun m e => e.Fits m.pm ∧ e.Distinct m.pm) (boot 0)
      [.call (.create (some 1) 0 fun _ => ⟨0, 0, 0⟩), .call (.create (some 2) 0 fun _ => ⟨0, 0, 0⟩), .call (.kill 1),
        .irq (.timer 0), .irq (.timer 0), .irq .monitorUp] m ∧ m.pm.destroyed = [1] := by
    refine ⟨_, .step ⟨⟨(by decide : 1 < 1000), fun p q hq => ?_⟩, .call 3 rfl rfl rfl rfl⟩ <|
      .step ⟨⟨(by decide : 2 < 1000), fun p q hq => ?_⟩, .call 3 rfl rfl rfl rfl⟩ <|
      .step ⟨⟨(by decide : 1 ≠ 0), trivial⟩, .call 3 rfl rfl trivial rfl⟩ <| .step ⟨⟨trivial, trivial⟩, .irq 3 rfl⟩ <|
      .step ⟨⟨trivial, trivial⟩, .irq 3 rfl⟩ <| .step ⟨⟨trivial, trivial⟩, .irq 3 rfl⟩ .refl, rfl⟩
    · by_cases h₀ : p = 0
      case pos => subst h₀; cases hq; exact nofun
      case neg => exact nomatch (Function.update_of_ne h₀ ..).symm.trans hq
    · by_cases h₀ : p = 0 <;> by_cases h₁ : p = 1
      · omega
      · subst h₀; cases hq; exact nofun
      · subst h₁; cases hq; exact nofun
      · exact nomatch ((Function.update_of_ne h₁ ..).trans <| (Function.update_of_ne h₀ ..).trans <|
          (Function.update_of_ne h₁ ..).trans <| Function.update_of_ne h₀ ..).symm.trans hq
  exact ⟨m, hs, hd, monitors_bijective hs ⟨_, List.mem_cons_self .., trivial⟩⟩

-- A process that is not reading from stdin.
def task (pid vm next : Nat) (state : PState) : Process where
  pid                 := pid
  state               := state
  context             := 0
  stdin               := .empty stdinQueueSize
  pft                 := Fs.initProcFileTable fun _ => ⟨0, 0, 0⟩
  vmonitor            := vm
  next                := next
  priority            := 1
  remainingTimeslices := 1

-- The machine in which only the kernel process exists. The next pid is `n`.
def idle (n : Nat) (f : Option Nat) (d : List Nat) : Machine where
  pm := {
    proc p        := if p = 0 then some <| task 0 0 0 .alive else none
    procsHead     := some 0
    activeProc    := some 0
    focusProc     := f
    nextPid       := n
    vmonitors _   := 0
    activeMonitor := 0
    maxvmonitor   := 0
    destroyed     := d }
  reading := fun _ => none

-- The machine with a further process, which has the pid `n`. The active monitor and its process are at `act`.
def busy (n act : Nat) (state : PState) (d : List Nat) : Machine where
  pm := {
    proc p        := if p = 0 then some <| task 0 0 1 .alive else if p = 1 then some <| task n 1 0 state else none
    procsHead     := some 0
    activeProc    := some 0
    focusProc     := some act
    nextPid       := (n + 1) % 2 ^ 32
    vmonitors i   := if i = 1 then n else 0
    activeMonitor := act
    maxvmonitor   := 1
    destroyed     := d }
  reading := fun _ => none

theorem idle_create {f : Option Nat} {d : List Nat} :
    Step (idle n f d) (.call <| .create (some 1) 0 fun _ => ⟨0, 0, 0⟩) (busy n 1 .alive d) := by
  have hr : (idle n f d).created (.create (some 1) 0 fun _ => ⟨0, 0, 0⟩) = idle n f d := by
    simp [Machine.created, Machine.setReading, idle]
  have ⟨s, h, hs⟩ : ∃ s, (Call.run 3 <| .create (some 1) 0 fun _ => ⟨0, 0, 0⟩).run (idle n f d).pm = (.ok (), s) ∧
      s = (busy n 1 .alive d).pm := by
    refine ⟨_, rfl, ?_⟩
    refine (State.mk.injEq ..).mpr ⟨funext fun p => ?_, rfl, rfl, rfl, rfl, funext fun i => ?_, rfl, rfl, rfl⟩
    · by_cases h₀ : p = 0 <;> by_cases h₁ : p = 1
      · omega
      · subst h₀; rfl
      · subst h₁; rfl
      · exact (Function.update_of_ne h₁ ..).trans <| (Function.update_of_ne h₀ ..).trans <|
          (Function.update_of_ne h₁ ..).trans <| (if_neg h₀).trans <| ((if_neg h₀).trans <| if_neg h₁).symm
    · by_cases h₁ : i = 1
      · subst h₁; rfl
      · exact (Function.update_of_ne h₁ ..).trans (if_neg h₁).symm
  have hs' := Step.call (m := idle n f d) 3 (c := .create (some 1) 0 fun _ => ⟨0, 0, 0⟩) rfl rfl rfl h
  rw [hr, hs] at hs'
  exact hs'

theorem busy_monitorDown {d : List Nat} : Step (busy n 1 .alive d) (.irq .monitorDown) (busy n 0 .alive d) :=
  .irq 3 rfl

theorem busy_kill {d : List Nat} (h₀ : n ≠ 0) (hn : n < 2 ^ 32) :
    Step (busy n 0 .alive d) (.call <| .kill n) (busy n 0 .dead d) := by
  have hg : (pmGetProc 3 n).wp (fun p s => p = some 1 ∧ s = (busy n 0 .alive d).pm) (fun _ _ => False)
      (busy n 0 .alive d).pm := by
    have hk : (task 0 0 1 .alive).pid ≠ n := h₀.symm
    have hp : (task n 1 0 .alive).pid = n := rfl
    rw [pmGetProc, Prog.wp_bind, wp_pointer_some (p := 0) rfl, getProcFrom, Prog.wp_bind, wp_deref_some rfl,
      if_neg hk, Prog.wp_bind, Prog.wp_gets, if_neg (fun h => by cases h), getProcFrom, Prog.wp_bind, wp_deref_some rfl, if_pos hp]
    exact ⟨rfl, rfl⟩
  have h : (Call.run 3 <| .kill n).wp (fun _ s => s = (busy n 0 .dead d).pm) (fun _ _ => False)
      (busy n 0 .alive d).pm := by
    rw [Call.run, sysKill, Nat.mod_eq_of_lt hn, pmKillProc, Prog.wp_bind]
    refine Prog.wp_post hg ?_
    rintro _ _ ⟨rfl, rfl⟩
    refine (wp_modifyProc_some rfl).mpr <| (State.mk.injEq ..).mpr
      ⟨funext fun p => ?_, rfl, rfl, rfl, rfl, rfl, rfl, rfl, rfl⟩
    by_cases h₁ : p = 1
    case pos => subst h₁; rfl
    case neg =>
      refine (Function.update_of_ne h₁ ..).trans ?_
      simp only [busy, if_neg h₁]
  obtain ⟨_, s, hr, hs⟩ := Prog.wp_total h
  subst hs
  exact .call (p := 0) 3 rfl rfl trivial hr

theorem busy_timer {d : List Nat} :
    Step (busy n 0 .dead d) (.irq <| .timer 0) (idle ((n + 1) % 2 ^ 32) (some 0) (1 :: d)) := by
  have ⟨s, h, hs⟩ : ∃ s, (Irq.run 3 <| .timer 0).run (busy n 0 .dead d).pm = (.ok (), s) ∧
      s = (idle ((n + 1) % 2 ^ 32) (some 0) (1 :: d)).pm := by
    refine ⟨_, rfl, ?_⟩
    refine (State.mk.injEq ..).mpr ⟨funext fun p => ?_, rfl, rfl, rfl, rfl, funext fun i => ?_, rfl, ?_, rfl⟩
    · by_cases h₀ : p = 0
      case pos => subst h₀; rfl
      case neg =>
        by_cases h₁ : p = 1
        case pos => subst h₁; rfl
        case neg =>
          refine (Function.update_of_ne h₀ ..).trans <| (Function.update_of_ne h₀ ..).trans <|
            (Function.update_of_ne h₁ ..).trans ?_
          refine Eq.trans (b := (busy n 0 .dead d).pm.proc p) (Function.update_of_ne h₀ ..) ?_
          simp only [busy, if_neg h₀, if_neg h₁]
    · by_cases h₁ : i = 1
      case pos => subst h₁; rfl
      case neg => exact (Function.update_of_ne h₁ ..).trans <| if_neg h₁
    · exact (by decide : (1 + (2 ^ 16 - 1)) % 2 ^ 16 = 0)
  have hs' := Step.irq (m := busy n 0 .dead d) 3 h
  rw [hs] at hs'
  exact hs'

theorem boot_idle : boot 0 = idle 1 none [] := by
  have h : (boot 0).pm = (idle 1 none []).pm := by
    refine (State.mk.injEq ..).mpr ⟨funext fun p => ?_, rfl, rfl, rfl, rfl, funext fun i => ?_, rfl, rfl, rfl⟩
    · by_cases h₀ : p = 0
      case pos => subst h₀; rfl
      case neg => exact (Function.update_of_ne h₀ ..).trans (if_neg h₀).symm
    · by_cases h₀ : i = 0
      case pos => subst h₀; rfl
      case neg => exact Function.update_of_ne h₀ ..
  exact (Machine.mk.injEq ..).mpr ⟨h, rfl⟩

-- A process is created and destroyed.
def cycle (n : Nat) : List Event :=
  [.call <| .create (some 1) 0 fun _ => ⟨0, 0, 0⟩, .irq .monitorDown, .call <| .kill n, .irq <| .timer 0]

theorem idle_cycle {f : Option Nat} {d : List Nat} (h₀ : n ≠ 0) (hn : n + 1 < 2 ^ 32) :
    Lts.Steps (Lts.When Step fun m e => e.Fits m.pm) (idle n f d) (cycle n) (idle (n + 1) (some 0) (1 :: d)) := by
  have hk : n % 2 ^ 32 ≠ 0 := by omega
  have h := busy_timer (n := n) (d := d)
  rw [Nat.mod_eq_of_lt hn] at h
  exact .step ⟨(by decide : 1 < 1000), idle_create⟩ <| .step ⟨trivial, busy_monitorDown⟩ <|
    .step ⟨hk, busy_kill h₀ (by omega)⟩ <| .step ⟨trivial, h⟩ .refl

theorem idle_reachable (hn : n + 1 < 2 ^ 32) :
    ∃ es f d, Lts.Steps (Lts.When Step fun m e => e.Fits m.pm) (boot 0) es (idle (n + 1) f d) := by
  induction n
  case zero =>
    rw [boot_idle]
    exact ⟨_, _, _, .refl⟩
  case succ n hi =>
    have ⟨es, f, d, hs⟩ := hi (by omega)
    exact ⟨_, _, _, hs.trans <| idle_cycle n.succ_ne_zero hn⟩

-- The machine with two processes after the wrap of the pids.
def wrapped (state : PState) (d : List Nat) : Machine where
  pm := {
    proc p        :=
      if p = 0 then some <| task 0 0 2 .alive else
      if p = 1 then some <| task (2 ^ 32 - 1) 1 0 state else
      if p = 2 then some <| task 0 2 1 .alive else none
    procsHead     := some 0
    activeProc    := some 0
    focusProc     := some 2
    nextPid       := 1
    vmonitors i   := if i = 1 then 2 ^ 32 - 1 else 0
    activeMonitor := 2
    maxvmonitor   := 2
    destroyed     := d }
  reading := fun _ => none

theorem wrapped_timers {d : List Nat} :
    ∃ m, Lts.Steps (Lts.When Step fun m e => e.Fits m.pm) (wrapped .dead d) [.irq <| .timer 0, .irq <| .timer 0] m ∧ ¬m.pm.Bijective 0 := by
  refine ⟨_, .step ⟨trivial, .irq 4 rfl⟩ <| .step ⟨trivial, .irq 4 rfl⟩ .refl, ?_⟩
  intro ⟨ps, _, hl, hb, _⟩
  have h₂ : 2 ∈ 0 :: ps := by
    cases ps with
    | nil      => exact nomatch hl.path
    | cons p _ =>
      have hp : 2 = p := Option.some.inj hl.path.left
      exact hp ▸ by simp
  exact (by decide : ¬2 ≤ (2 + (2 ^ 16 - 1)) % 2 ^ 16) <| hb.mapsTo h₂

theorem wrapped_create {d : List Nat} :
    Step (busy (2 ^ 32 - 1) 1 .alive d) (.call <| .create (some 2) 0 fun _ => ⟨0, 0, 0⟩) (wrapped .alive d) := by
  have hb : busy (2 ^ 32 - 1) 1 .alive d =
      ⟨{ (busy (2 ^ 32 - 1) 1 .alive d).pm with nextPid := 0 }, fun _ => none⟩ := rfl
  have hr : (busy (2 ^ 32 - 1) 1 .alive d).created (.create (some 2) 0 fun _ => ⟨0, 0, 0⟩) =
      busy (2 ^ 32 - 1) 1 .alive d := by
    simp [Machine.created, Machine.setReading, busy]
  have ⟨s, h, hs⟩ : ∃ s, (Call.run 4 <| .create (some 2) 0 fun _ => ⟨0, 0, 0⟩).run (busy (2 ^ 32 - 1) 1 .alive d).pm =
      (.ok (), s) ∧ s = (wrapped .alive d).pm := by
    rw [hb]
    refine ⟨_, rfl, ?_⟩
    refine (State.mk.injEq ..).mpr ⟨funext fun p => ?_, rfl, rfl, rfl, rfl, funext fun i => ?_, rfl, rfl, rfl⟩
    · by_cases h₀ : p = 0
      case pos => subst h₀; rfl
      case neg =>
        by_cases h₂ : p = 2
        case pos => subst h₂; rfl
        case neg =>
          refine (Function.update_of_ne h₂ ..).trans <| (Function.update_of_ne h₀ ..).trans <|
            Eq.trans (b := (busy (2 ^ 32 - 1) 1 .alive d).pm.proc p) (Function.update_of_ne h₂ ..) ?_
          simp only [busy, if_neg h₀, if_neg h₂]
    · by_cases h₂ : i = 2
      case pos => subst h₂; rfl
      case neg => exact Function.update_of_ne h₂ ..
  have hs' := Step.call (m := busy (2 ^ 32 - 1) 1 .alive d) 4 (c := .create (some 2) 0 fun _ => ⟨0, 0, 0⟩) rfl rfl rfl h
  rw [hr, hs] at hs'
  exact hs'

theorem wrapped_kill {d : List Nat} : Step (wrapped .alive d) (.call <| .kill <| 2 ^ 32 - 1) (wrapped .dead d) := by
  have ⟨s, h, hs⟩ : ∃ s, (Call.run 4 <| .kill <| 2 ^ 32 - 1).run (wrapped .alive d).pm = (.ok (), s) ∧
      s = (wrapped .dead d).pm := by
    refine ⟨_, rfl, ?_⟩
    refine (State.mk.injEq ..).mpr ⟨funext fun p => ?_, rfl, rfl, rfl, rfl, rfl, rfl, rfl, rfl⟩
    by_cases h₁ : p = 1
    case pos => subst h₁; rfl
    case neg =>
      refine Eq.trans (b := (wrapped .alive d).pm.proc p) (Function.update_of_ne h₁ ..) ?_
      simp only [wrapped, if_neg h₁]
  subst hs
  exact .call (p := 0) 4 rfl rfl trivial h

-- The pid of a further process is that of the kernel process, and its monitor moves without it.
theorem monitors_not_bijective :
    ∃ es m, Lts.Steps (Lts.When Step fun m e => e.Fits m.pm) (boot 0) es m ∧ (∃ e ∈ es, e.Creates) ∧
      ¬m.pm.Bijective 0 := by
  have ⟨es, f, d, hs⟩ := idle_reachable (n := 2 ^ 32 - 2) (by decide)
  have ⟨m, hs', hb⟩ := wrapped_timers (d := d)
  have hm : (2 ^ 32 - 1) % 2 ^ 32 ≠ 0 := by decide
  have hw : Lts.Steps (Lts.When Step fun m e => e.Fits m.pm) (idle (2 ^ 32 - 1) f d)
      [.call (.create (some 1) 0 fun _ => ⟨0, 0, 0⟩), .call (.create (some 2) 0 fun _ => ⟨0, 0, 0⟩),
        .call (.kill (2 ^ 32 - 1)), .irq (.timer 0), .irq (.timer 0)] m :=
    .step ⟨(by decide : 1 < 1000), idle_create⟩ <| .step ⟨(by decide : 2 < 1000), wrapped_create⟩ <|
    .step ⟨hm, wrapped_kill⟩ hs'
  exact ⟨_, m, hs.trans hw, ⟨_, List.mem_append_right _ <| List.mem_cons_self .., trivial⟩, hb⟩

end Pm
