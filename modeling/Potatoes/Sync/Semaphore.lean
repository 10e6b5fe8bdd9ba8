import Mathlib
import Potatoes.Sync.Model

namespace Sync

variable {τ σ : Type} [DecidableEq σ] {program : τ → Nat → Instr σ} {init : σ → Int} {s s' : State τ σ} {t u : τ}
variable {x y : σ} {op : Op}

omit [DecidableEq σ] in
theorem int32_of_range {n : Int} (h₁ : -2 ^ 31 ≤ n) (h₂ : n < 2 ^ 31) : int32 n = n := by
  rw [int32, Int.bmod_def]
  split <;> omega

-- What a call adds to the count.
def Op.change : Op → Int
  | p => -1
  | v => 1

-- What a thread relies on after it has left the `mutex_lock` of a semaphore function.
structure State.Local (program : τ → Nat → Instr σ) (s : State τ σ) (t : τ) : Prop where
  outside : (∀ op x, program t (s.thread t).pos ≠ .sem op x) → (s.thread t).phase = .lock
  loads   : ∀ x, program t (s.thread t).pos = .sem .p x → (s.thread t).phase = .load → 0 < s.count x
  stores  : ∀ op x, program t (s.thread t).pos = .sem op x → (s.thread t).phase = .store →
    (s.thread t).count = s.count x ∧ (op = .p → 0 < s.count x)

-- What holds between any two steps of the threads, even if counts have wrapped around.
structure State.Sound (program : τ → Nat → Instr σ) (init : σ → Int) (s : State τ σ) : Prop where
  taken   : ∀ t x, s.Holds program t x → s.lock x ≠ 0
  excl    : ∀ t u x, s.Holds program t x → s.Holds program u x → t = u
  once    : ∀ t x, s.Inside program t x → locked (program t) x (s.thread t).pos = false
  local_  : ∀ t, s.Local program t
  counted : ∀ x, s.count x = int32 (s.balance init x)

section Locked

variable {is : Nat → Instr σ} {pos : Nat}

theorem locked_lock (h : is pos = .lock y) : locked is x (pos + 1) = (y = x || locked is x pos) := by
  rw [locked, h]

theorem locked_unlock (h : is pos = .unlock y) : locked is x (pos + 1) = (y ≠ x && locked is x pos) := by
  rw [locked, h]

theorem locked_succ (hl : ∀ y, is pos ≠ .lock y) (hu : ∀ y, is pos ≠ .unlock y) :
    locked is x (pos + 1) = locked is x pos := by
  rw [locked]
  split
  case h_1 h => exact absurd h (hl _)
  case h_2 h => exact absurd h (hu _)
  case h_3   => rfl

end Locked

namespace State

omit [DecidableEq σ] in
theorem Inside.congr (h : s'.thread t = s.thread t) : s'.Inside program t x ↔ s.Inside program t x := by
  rw [Inside, Inside, h]

theorem Holds.congr (h : s'.thread t = s.thread t) : s'.Holds program t x ↔ s.Holds program t x := by
  rw [Holds, Holds, Inside.congr h, h]

omit [DecidableEq σ] in
theorem inside_of (hi : program t (s.thread t).pos = .sem op x) (hp : (s.thread t).phase ≠ .lock) :
    s.Inside program t x :=
  ⟨⟨op, hi⟩, hp⟩

-- A thread is inside of the functions of at most one semaphore.
omit [DecidableEq σ] in
theorem Inside.eq (h : s.Inside program t y) (hi : program t (s.thread t).pos = .sem op x) : y = x := by
  obtain ⟨⟨_, h⟩, _⟩ := h
  cases h.symm.trans hi
  rfl

omit [DecidableEq σ] in
theorem Local.congr (h : s.Local program t) (hth : s'.thread t = s.thread t)
    (hc : ∀ y, s.Inside program t y → s'.count y = s.count y) : s'.Local program t where
  outside := hth ▸ h.outside
  loads y hi hp := by
    rw [hth] at hi hp
    rw [hc y <| inside_of hi (hp ▸ fun h => by cases h)]
    exact h.loads y hi hp
  stores op y hi hp := by
    rw [hth] at hi hp ⊢
    rw [hc y <| inside_of hi (hp ▸ fun h => by cases h)]
    exact h.stores op y hi hp

omit [DecidableEq σ] in
theorem Local.of_lock (hp : (s.thread t).phase = .lock) : s.Local program t where
  outside _       := hp
  loads _ _ h     := by cases hp.symm.trans h
  stores _ _ _ h  := by cases hp.symm.trans h

omit [DecidableEq σ] in
theorem Local.of_sem (hi : program t (s.thread t).pos = .sem op x)
    (hl : op = .p → (s.thread t).phase = .load → 0 < s.count x)
    (hs : (s.thread t).phase = .store → (s.thread t).count = s.count x ∧ (op = .p → 0 < s.count x)) :
    s.Local program t where
  outside hn          := absurd hi <| hn op x
  loads y hi' hp      := by
    cases hi.symm.trans hi'
    exact hl rfl hp
  stores op' y hi' hp := by
    cases hi.symm.trans hi'
    exact hs hp

namespace Sound

-- A step that concerns only the thread itself.
theorem move (h : s.Sound program init) (hl : s'.lock = s.lock) (hc : s'.count = s.count) (hi : s'.incs = s.incs)
    (hd : s'.decs = s.decs) (hu : ∀ u, u ≠ t → s'.thread u = s.thread u)
    (hin : ∀ x, s'.Inside program t x → s.Inside program t x)
    (hpos : ∀ x, locked (program t) x (s'.thread t).pos = locked (program t) x (s.thread t).pos)
    (hloc : s'.Local program t) : s'.Sound program init := by
  have hold (u x) (hh : s'.Holds program u x) : s.Holds program u x := by
    by_cases he : u = t
    case pos =>
      subst he
      exact hh.imp (hin x) fun hk => hpos x ▸ hk
    case neg => exact (Holds.congr <| hu u he).mp hh
  refine ⟨fun u x hh => hl ▸ h.taken u x (hold u x hh), fun u v x hh hh' => h.excl u v x (hold u x hh) (hold v x hh'),
    fun u x hh => ?_, fun u => ?_, fun x => ?_⟩
  · by_cases he : u = t
    case pos =>
      subst he
      exact (hpos x).trans <| h.once u x <| hin x hh
    case neg =>
      rw [hu u he]
      exact h.once u x <| (Inside.congr <| hu u he).mp hh
  · by_cases he : u = t
    case pos => exact he ▸ hloc
    case neg => exact (h.local_ u).congr (hu u he) fun y _ => by rw [hc]
  · rw [balance, hc, hi, hd]
    exact h.counted x

theorem initial (hc : ∀ x, 0 ≤ init x ∧ init x < 2 ^ 31) : (State.init init : State τ σ).Sound program init where
  taken _ _ hh  := hh.elim (fun hh => absurd rfl hh.right) fun hk => by cases hk
  excl _ _ _ hh := hh.elim (fun hh => absurd rfl hh.right) fun hk => by cases hk
  once _ _ _    := rfl
  local_ _      := .of_lock rfl
  counted x     := by
    have ⟨h₁, h₂⟩ := hc x
    have hb : (State.init init : State τ σ).balance init x = init x := by
      simp only [balance, State.init]
      omega
    rw [hb, int32_of_range (by omega) h₂]
    rfl

section Steps

variable [DecidableEq τ] {th : Thread}

omit [DecidableEq σ] in
theorem setThread_self (s : State τ σ) (t : τ) (th : Thread) : (s.setThread t th).thread t = th :=
  Function.update_self ..

omit [DecidableEq σ] in
theorem setThread_of_ne (s : State τ σ) (th : Thread) (h : u ≠ t) : (s.setThread t th).thread u = s.thread u :=
  Function.update_of_ne h ..

-- A step by which a thread in the critical section loads or tests the count.
theorem inside (h : s.Sound program init) (hi : program t (s.thread t).pos = .sem op x)
    (hp : (s.thread t).phase ≠ .lock) (hpos : th.pos = (s.thread t).pos)
    (hl : op = .p → th.phase = .load → 0 < s.count x)
    (hs : th.phase = .store → th.count = s.count x ∧ (op = .p → 0 < s.count x)) :
    (s.setThread t th).Sound program init := by
  have ht := setThread_self s t th
  refine h.move (t := t) rfl rfl rfl rfl (fun u hu => setThread_of_ne _ _ hu) (fun y hh => ?_) (fun y => ?_) ?_
  · obtain ⟨⟨op', hi'⟩, _⟩ := hh
    rw [ht, hpos] at hi'
    exact ⟨⟨op', hi'⟩, hp⟩
  · rw [ht, hpos]
  · have hi' : program t ((s.setThread t th).thread t).pos = .sem op x := by rw [ht, hpos, hi]
    refine .of_sem hi' ?_ ?_
    · rw [ht]
      exact hl
    · rw [ht]
      exact hs

-- A step on the shared variable outside of the semaphores.
theorem outside (h : s.Sound program init) (hn : ∀ op x, program t (s.thread t).pos ≠ .sem op x)
    (hl : ∀ x, program t (s.thread t).pos ≠ .lock x) (hu : ∀ x, program t (s.thread t).pos ≠ .unlock x)
    (hpos : th.pos = (s.thread t).pos + 1) (hth : th.phase = (s.thread t).phase) (e : Int) :
    ({ s with elements := e }.setThread t th).Sound program init := by
  have ht := setThread_self { s with elements := e } t th
  generalize hs' : State.setThread _ t th = s' at ht ⊢
  have hlock : (s'.thread t).phase = .lock := by rw [ht, hth, (h.local_ t).outside hn]
  exact h.move (hs' ▸ rfl) (hs' ▸ rfl) (hs' ▸ rfl) (hs' ▸ rfl) (fun u hu => hs' ▸ setThread_of_ne _ _ hu)
    (fun y hh => absurd hlock hh.right) (fun y => by rw [ht, hpos, locked_succ hl hu]) <| .of_lock hlock

-- The exchange in `mutex_lock`, if the lock has been 0.
theorem acquire (h : s.Sound program init) (hz : s.lock x = 0)
    (hs' : State.setThread { s with lock := Function.update s.lock x 1 } t th = s')
    (hold : ∀ y, y ≠ x → s'.Holds program t y → s.Holds program t y)
    (honce : ∀ y, s'.Inside program t y → locked (program t) y (s'.thread t).pos = false)
    (hloc : s'.Local program t) : s'.Sound program init := by
  have hlock : s'.lock = Function.update s.lock x 1 := hs' ▸ rfl
  have hu (u) (he : u ≠ t) : s'.thread u = s.thread u := by rw [← hs', setThread_of_ne _ _ he]
  -- The lock has been free, so no thread has held it.
  have hfree (u) : ¬s.Holds program u x := fun hh => h.taken u x hh hz
  have hold' (u y) (hy : y ≠ x) (hh : s'.Holds program u y) : s.Holds program u y := by
    by_cases he : u = t
    case pos =>
      subst he
      exact hold y hy hh
    case neg => exact (Holds.congr <| hu u he).mp hh
  have hself (u) (hh : s'.Holds program u x) : u = t := by
    by_contra he
    exact hfree u <| (Holds.congr <| hu u he).mp hh
  refine ⟨fun u y hh => ?_, fun u v y hh hh' => ?_, fun u y hh => ?_, fun u => ?_, hs' ▸ h.counted⟩
  · rw [hlock]
    by_cases hy : y = x
    case pos => simp [hy]
    case neg =>
      rw [Function.update_of_ne hy]
      exact h.taken u y <| hold' u y hy hh
  · by_cases hy : y = x
    case pos =>
      subst hy
      rw [hself u hh, hself v hh']
    case neg => exact h.excl u v y (hold' u y hy hh) (hold' v y hy hh')
  · by_cases he : u = t
    case pos =>
      subst he
      exact honce y hh
    case neg =>
      rw [hu u he]
      exact h.once u y <| (Inside.congr <| hu u he).mp hh
  · by_cases he : u = t
    case pos => exact he ▸ hloc
    case neg => exact (h.local_ u).congr (hu u he) fun _ _ => hs' ▸ rfl

-- An exchange that fails.
omit [DecidableEq τ] in
theorem spin (h : s.Sound program init) (x : σ) : Sound program init { s with lock := Function.update s.lock x 1 } := by
  refine ⟨fun u y hh => ?_, h.excl, h.once, fun u => (h.local_ u).congr rfl fun _ _ => rfl, h.counted⟩
  by_cases hy : y = x
  case pos => simp [hy]
  case neg =>
    change Function.update s.lock x 1 y ≠ 0
    rw [Function.update_of_ne hy]
    exact h.taken u y hh

-- A thread that holds a lock releases it.
theorem release (h : s.Sound program init) (hx : s.Holds program t x) (hth : th.phase = .lock)
    (hold : ∀ y, locked (program t) y th.pos → y ≠ x ∧ locked (program t) y (s.thread t).pos) :
    ((s.mutexUnlock x).setThread t th).Sound program init := by
  generalize hs' : State.setThread _ t _ = s'
  have ht : s'.thread t = th := by rw [← hs', setThread_self]
  have hu (u) (he : u ≠ t) : s'.thread u = s.thread u := by rw [← hs', setThread_of_ne _ _ he, State.mutexUnlock]
  have hout (y) : ¬s'.Inside program t y := fun hh => hh.right <| ht ▸ hth
  have hold' (u y) (hh : s'.Holds program u y) : y ≠ x ∧ s.Holds program u y := by
    by_cases he : u = t
    case pos =>
      subst he
      have hk := hh.resolve_left (hout y)
      rw [ht] at hk
      exact ⟨(hold y hk).left, .inr (hold y hk).right⟩
    case neg =>
      have hh := (Holds.congr <| hu u he).mp hh
      exact ⟨fun hy => he <| h.excl u t x (hy ▸ hh) hx, hh⟩
  refine ⟨fun u y hh => ?_, fun u v y hh hh' => h.excl u v y (hold' u y hh).right (hold' v y hh').right,
    fun u y hh => ?_, fun u => ?_, hs' ▸ h.counted⟩
  · have ⟨hy, hh⟩ := hold' u y hh
    have : s'.lock y = s.lock y := by
      rw [← hs']
      exact Function.update_of_ne hy ..
    exact this ▸ h.taken u y hh
  · by_cases he : u = t
    case pos => exact absurd (he ▸ hh) <| hout y
    case neg =>
      rw [hu u he]
      exact h.once u y <| (Inside.congr <| hu u he).mp hh
  · by_cases he : u = t
    case pos => exact .of_lock <| he ▸ ht ▸ hth
    case neg => exact (h.local_ u).congr (hu u he) fun _ _ => hs' ▸ rfl

-- The count that a thread stores is the one that it has loaded.
theorem storeCount (h : s.Sound program init) (hi : program t (s.thread t).pos = .sem op x)
    (hp : (s.thread t).phase = .store) :
    ((s.storeCount t x op).setThread t { s.thread t with phase := .unlock }).Sound program init := by
  have hx : s.Inside program t x := inside_of hi <| hp ▸ fun h => by cases h
  have ⟨hc, _⟩ := (h.local_ t).stores op x hi hp
  generalize hs' : State.setThread _ t _ = s'
  have ht : s'.thread t = { s.thread t with phase := .unlock } := by rw [← hs', setThread_self]
  have hu (u) (he : u ≠ t) : s'.thread u = s.thread u := by
    rw [← hs', setThread_of_ne _ _ he]
    cases op <;> rfl
  have hlock : s'.lock = s.lock := by
    rw [← hs']
    cases op <;> rfl
  have hcount (y) (hy : y ≠ x) : s'.count y = s.count y ∧ s'.balance init y = s.balance init y := by
    rw [← hs']
    cases op <;> simp [State.setThread, State.storeCount, balance, hy]
  have hcx : s'.count x = int32 (s'.balance init x) := by
    rw [← hs']
    cases op with
    | p =>
      have hb : s.balance init x - 1 = init x + s.incs x - ((s.decs x + 1 : Nat) : Int) := by
        simp only [balance]
        omega
      simp only [State.setThread, State.storeCount, balance, Function.update_self]
      rw [hc, h.counted x, int32, int32, Int.bmod_sub_bmod, hb]
      rfl
    | v =>
      have hb : s.balance init x + 1 = init x + ((s.incs x + 1 : Nat) : Int) - s.decs x := by
        simp only [balance]
        omega
      simp only [State.setThread, State.storeCount, balance, Function.update_self]
      rw [hc, h.counted x, int32, int32, Int.bmod_add_bmod, hb]
      rfl
  have hin (y) (hh : s'.Inside program t y) : s.Inside program t y := by
    obtain ⟨⟨op', hi'⟩, _⟩ := hh
    rw [ht] at hi'
    exact ⟨⟨op', hi'⟩, hx.right⟩
  have hold (u y) (hh : s'.Holds program u y) : s.Holds program u y := by
    by_cases he : u = t
    case pos =>
      subst he
      exact hh.imp (hin y) fun hk => by rwa [ht] at hk
    case neg => exact (Holds.congr <| hu u he).mp hh
  refine ⟨fun u y hh => hlock ▸ h.taken u y (hold u y hh),
    fun u v y hh hh' => h.excl u v y (hold u y hh) (hold v y hh'), fun u y hh => ?_, fun u => ?_, fun y => ?_⟩
  · by_cases he : u = t
    case pos =>
      subst he
      rw [ht]
      exact h.once u y <| hin y hh
    case neg =>
      rw [hu u he]
      exact h.once u y <| (Inside.congr <| hu u he).mp hh
  · by_cases he : u = t
    case pos =>
      subst he
      have hphase : (s'.thread u).phase = .unlock := by rw [ht]
      have hi' : program u (s'.thread u).pos = .sem op x := by rw [ht, hi]
      exact .of_sem hi' (fun _ hl => by cases hphase.symm.trans hl) fun hl => by cases hphase.symm.trans hl
    case neg =>
      refine (h.local_ u).congr (hu u he) fun y hy => (hcount y ?_).left
      exact fun hyx => he <| h.excl u t x (hyx ▸ .inl hy) <| .inl hx
  · by_cases hy : y = x
    case pos => exact hy ▸ hcx
    case neg =>
      have ⟨h₁, h₂⟩ := hcount y hy
      rw [h₁, h₂]
      exact h.counted y

theorem sem_lock (h : s.Sound program init) (hi : program t (s.thread t).pos = .sem op x) {phase : Phase}
    (hp : phase = .test ∨ op ≠ .p ∧ phase = .load) : (s.mutexLock t x { s.thread t with phase }).Sound program init := by
  by_cases hz : s.lock x = 0
  case neg =>
    rw [State.mutexLock, if_neg hz]
    exact h.spin x
  case pos =>
    rw [State.mutexLock, if_pos hz]
    generalize hs' : State.setThread _ t _ = s'
    have ht : s'.thread t = { s.thread t with phase } := by rw [← hs', setThread_self]
    have hi' : program t (s'.thread t).pos = .sem op x := by rw [ht, hi]
    refine h.acquire hz hs' (fun y hy hh => ?_) (fun y hh => ?_) <| .of_sem hi' (fun ho hl => ?_) fun hst => ?_
    · refine hh.elim (fun hh => absurd (hh.eq hi') hy) fun hk => .inr ?_
      rwa [ht] at hk
    · rw [hh.eq hi', ht]
      exact Bool.eq_false_iff.mpr fun hk => h.taken t x (.inr hk) hz
    · rw [ht] at hl
      rcases hp with hp | hp
      · cases hp.symm.trans hl
      · exact absurd ho hp.left
    · rw [ht] at hst
      rcases hp with hp | hp
      · cases hp.symm.trans hst
      · cases hp.right.symm.trans hst

theorem sem (h : s.Sound program init) (hi : program t (s.thread t).pos = .sem op x) :
    (s.sem t op x).Sound program init := by
  have hx (hp : (s.thread t).phase ≠ .lock) : s.Holds program t x := .inl <| inside_of hi hp
  have hsucc (y) : locked (program t) y ((s.thread t).pos + 1) = locked (program t) y (s.thread t).pos :=
    locked_succ (fun _ he => by cases hi.symm.trans he) fun _ he => by cases hi.symm.trans he
  -- The lock that the thread releases is not one that it has taken itself.
  have hne (hp : (s.thread t).phase ≠ .lock) (y) (hk : locked (program t) y (s.thread t).pos) : y ≠ x := by
    rintro rfl
    exact absurd hk <| Bool.eq_false_iff.mp <| h.once t y <| inside_of hi hp
  simp only [State.sem]
  cases hp : (s.thread t).phase with
  | lock =>
    cases op with
    | p => exact h.sem_lock hi <| .inl rfl
    | v => exact h.sem_lock hi <| .inr ⟨(fun ho => by cases ho), rfl⟩
  | test =>
    have hp : (s.thread t).phase ≠ .lock := hp ▸ fun h => by cases h
    by_cases hc : s.count x > 0
    case pos => exact h.inside hi hp rfl (fun _ _ => hc) fun hs => by simp [hc] at hs
    case neg => exact h.inside hi hp rfl (fun _ hl => by simp [hc] at hl) fun hs => by simp [hc] at hs
  | load =>
    have hpos (ho : op = .p) := (h.local_ t).loads x (ho ▸ hi) hp
    exact h.inside hi (hp ▸ fun h => by cases h) rfl (fun _ hl => by cases hl) fun _ => ⟨rfl, hpos⟩
  | store => exact h.storeCount hi hp
  | unlock =>
    have hp : (s.thread t).phase ≠ .lock := hp ▸ fun h => by cases h
    refine h.release (hx hp) rfl fun y hk => ?_
    rw [hsucc] at hk
    exact ⟨hne hp y hk, hk⟩
  | fail =>
    have hp : (s.thread t).phase ≠ .lock := hp ▸ fun h => by cases h
    exact h.release (hx hp) rfl fun y hk => ⟨hne hp y hk, hk⟩

theorem lock (h : s.Sound program init) (hi : program t (s.thread t).pos = .lock x) :
    (s.mutexLock t x { s.thread t with pos := (s.thread t).pos + 1 }).Sound program init := by
  have hp := (h.local_ t).outside fun _ _ he => by cases hi.symm.trans he
  by_cases hz : s.lock x = 0
  case neg =>
    rw [State.mutexLock, if_neg hz]
    exact h.spin x
  case pos =>
    rw [State.mutexLock, if_pos hz]
    generalize hs' : State.setThread _ t _ = s'
    have ht : s'.thread t = { s.thread t with pos := (s.thread t).pos + 1 } := by rw [← hs', setThread_self]
    have hp' : (s'.thread t).phase = .lock := by rw [ht, hp]
    refine h.acquire hz hs' (fun y hy hh => .inr ?_) (fun y hh => absurd hp' hh.right) <| .of_lock hp'
    have hk := hh.resolve_left fun hh => hh.right hp'
    rw [ht, locked_lock hi, Bool.or_eq_true, decide_eq_true_eq] at hk
    exact hk.resolve_left <| Ne.symm hy

theorem unlock (h : s.Sound program init) (hpair : Paired program) (hi : program t (s.thread t).pos = .unlock x) :
    ((s.mutexUnlock x).setThread t { s.thread t with pos := (s.thread t).pos + 1 }).Sound program init := by
  have hp := (h.local_ t).outside fun _ _ he => by cases hi.symm.trans he
  refine h.release (.inr <| hpair t _ x hi) hp fun y hk => ?_
  rw [locked_unlock hi, Bool.and_eq_true, decide_eq_true_eq] at hk
  exact ⟨hk.left.symm, hk.right⟩

theorem step (hpair : Paired program) (h : s.Sound program init) (t : τ) : (s.step program t).Sound program init := by
  simp only [State.step]
  cases hi : program t (s.thread t).pos with
  | sem op x => exact h.sem hi
  | lock x   => exact h.lock hi
  | unlock x => exact h.unlock hpair hi
  | load     =>
    have hn {i} (hne : .load ≠ i) : program t (s.thread t).pos ≠ i := fun he => hne <| hi.symm.trans he
    refine h.outside (fun _ _ => hn fun h => by cases h) (fun _ => hn fun h => by cases h)
      (fun _ => hn fun h => by cases h) ?_ ?_ s.elements
    all_goals rfl
  | store k  =>
    have hn {i} (hne : .store k ≠ i) : program t (s.thread t).pos ≠ i := fun he => hne <| hi.symm.trans he
    refine h.outside (fun _ _ => hn fun h => by cases h) (fun _ => hn fun h => by cases h)
      (fun _ => hn fun h => by cases h) ?_ ?_ _
    all_goals rfl

theorem run (hpair : Paired program) (h : s.Sound program init) (ts : List τ) : (s.run program ts).Sound program init :=
  Lts.foldl_invariant (fun _ t h => h.step hpair t) h ts

end Steps

end Sound

-- The counts are not negative, and no update of them is lost.
def Exact (init : σ → Int) (s : State τ σ) : Prop :=
  ∀ x, 0 ≤ s.count x ∧ s.count x = s.balance init x

section Exact

omit [DecidableEq σ] in
theorem Exact.initial (hc : ∀ x, 0 ≤ init x) : (State.init init : State τ σ).Exact init := by
  intro x
  refine ⟨hc x, ?_⟩
  simp only [State.init, balance]
  omega

theorem Sound.exact_iff (h : s.Sound program init) :
    s.Exact init ↔ ∀ x, 0 ≤ s.balance init x ∧ s.balance init x < 2 ^ 31 := by
  constructor
  case mp =>
    intro he x
    have ⟨hz, hb⟩ := he x
    have hlt : int32 (s.balance init x) < (2 ^ 32 + 1) / 2 := Int.bmod_lt (by decide)
    rw [← h.counted x, hb] at hlt
    exact ⟨hb ▸ hz, by omega⟩
  case mpr =>
    intro hr x
    have ⟨h₁, h₂⟩ := hr x
    have hc := (h.counted x).trans <| int32_of_range (by omega) h₂
    exact ⟨hc ▸ h₁, hc⟩

variable [DecidableEq τ]

-- The number that a semaphore stands for changes when its count is stored.

theorem balance_step (hs : (s.thread t).phase = .store → ∀ op x, program t (s.thread t).pos ≠ .sem op x) :
    (s.step program t).balance init = s.balance init := by
  have hlock (x : σ) (th : Thread) : (s.mutexLock t x th).balance init = s.balance init := by
    rw [mutexLock]
    split <;> rfl
  rw [State.step]
  cases hi : program t (s.thread t).pos with
  | sem op x =>
    simp only [State.sem]
    cases hp : (s.thread t).phase with
    | store => exact absurd hi <| hs hp op x
    | lock  => exact hlock x _
    | _     => rfl
  | lock x   => exact hlock x _
  | _        => rfl

theorem balance_store (hi : program t (s.thread t).pos = .sem op x) (hp : (s.thread t).phase = .store) :
    (s.step program t).balance init =
      Function.update (s.balance init) x (s.balance init x + op.change) := by
  funext y
  simp only [State.step, hi, State.sem, hp]
  by_cases hy : y = x
  case pos => cases op <;> simp [storeCount, setThread, balance, Op.change, hy] <;> omega
  case neg => cases op <;> simp [storeCount, setThread, balance, hy]

theorem Sound.exact_step (hpair : Paired program) (h : s.Sound program init) (he : s.Exact init) (t : τ) :
    (s.step program t).Exact init ↔ s.Room program t := by
  have hr := h.exact_iff.mp he
  rw [(h.step hpair t).exact_iff]
  by_cases hs : (s.thread t).phase = .store ∧ ∃ op x, program t (s.thread t).pos = .sem op x
  case neg =>
    rw [balance_step fun hp op x hi => hs ⟨hp, op, x, hi⟩]
    exact iff_of_true hr fun x hi hp => absurd ⟨hp, .v, x, hi⟩ hs
  case pos =>
    obtain ⟨hp, op, x, hi⟩ := hs
    have ⟨hc, hpos⟩ := (h.local_ t).stores op x hi hp
    have hb := (he x).right
    rw [balance_store hi hp]
    constructor
    case mp =>
      intro hr' y hi' _
      cases hi.symm.trans hi'
      have := (hr' x).right
      rw [Function.update_self, Op.change] at this
      omega
    case mpr =>
      intro hroom y
      by_cases hy : y = x
      case neg =>
        rw [Function.update_of_ne hy]
        exact hr y
      case pos =>
        rw [hy, Function.update_self]
        have ⟨h₁, h₂⟩ := hr x
        cases op with
        | p =>
          have := hpos rfl
          exact ⟨by rw [Op.change]; omega, by rw [Op.change]; omega⟩
        | v =>
          have := hroom x hi hp
          exact ⟨by rw [Op.change]; omega, by rw [Op.change]; omega⟩

-- The counts are exact in all states of a run if and only if none of them has been the greatest number of its type when
-- it was incremented.
theorem Sound.along_iff (hpair : Paired program) (h : s.Sound program init) (he : s.Exact init) (ts : List τ) :
    Lts.Along (State.step program) (Exact init) (fun _ _ => True) s ts ↔
      Lts.Each (State.step program) (Room program) s ts :=
  Lts.along_iff_each (I := fun s => Sound program init s ∧ Exact init s) (fun _ h => h.right)
    (fun _ t h hr => ⟨trivial, h.left.step hpair t, (h.left.exact_step hpair h.right t).mpr hr⟩)
    (fun _ t h _ he => (h.left.exact_step hpair h.right t).mp he) ⟨h, he⟩ ts

end Exact

end State

end Sync
