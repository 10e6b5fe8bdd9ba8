import Mathlib
import Potatoes.Lib.Prog
import Potatoes.Lib.Runs

-- The time of day (io/io_rtc.c), which the timer interrupt keeps up to date (io/io_timer.c).

namespace Io.Rtc

-- The clock of the machine.
structure Clock where
  sec     : Nat
  min     : Nat
  hour    : Nat
  day     : Nat
  month   : Nat
  year    : Nat
  century : Nat
  deriving DecidableEq

-- Once a second the clock moves on. The number of days of the current month is up to its calendar.
def Clock.tick (days : Clock → Nat) (c : Clock) : Clock :=
  if c.sec < 59 then
    { c with sec := c.sec + 1 }
  else if c.min < 59 then
    { c with sec := 0, min := c.min + 1 }
  else if c.hour < 23 then
    { c with sec := 0, min := 0, hour := c.hour + 1 }
  else if c.day < days c then
    { c with sec := 0, min := 0, hour := 0, day := c.day + 1 }
  else if c.month < 12 then
    { c with sec := 0, min := 0, hour := 0, day := 1, month := c.month + 1 }
  else if c.year < 99 then
    { c with sec := 0, min := 0, hour := 0, day := 1, month := 1, year := c.year + 1 }
  else
    { sec := 0, min := 0, hour := 0, day := 1, month := 1, year := 0, century := c.century + 1 }

def bcd (n : Nat) : UInt8 :=
  .ofNat <| n / 10 * 16 + n % 10

-- The registers that are read.
inductive Register
  | sec
  | min
  | hour
  | day
  | month
  | year
  | century

def Clock.get (c : Clock) : Register → UInt8
  | .sec     => bcd c.sec
  | .min     => bcd c.min
  | .hour    => bcd c.hour
  | .day     => bcd c.day
  | .month   => bcd c.month
  | .year    => bcd c.year
  | .century => bcd c.century

structure Time where
  sec     : UInt8
  min     : UInt8
  hour    : UInt8
  weekday : UInt8
  day     : UInt8
  month   : UInt8
  year    : UInt8
  century : UInt8
  deriving DecidableEq

inductive Fault
  | outOfBounds  -- the month has no entry in the table
  deriving DecidableEq

-- `addr` is the register that is selected at the port `RTC_ADDR`.
structure Machine where
  clock : Clock
  addr  : Register
  time  : Time
  ticks : Int

abbrev RtcM := Prog Machine Fault

def outb (r : Register) : RtcM Unit :=
  .modify fun m => { m with addr := r }

def inb : RtcM UInt8 :=
  .gets fun m => m.clock.get m.addr

def read (r : Register) : RtcM UInt8 := do
  outb r
  inb

def setTime (f : Time → Time) : RtcM Unit :=
  .modify fun m => { m with time := f m.time }

def bcd2bin (num : UInt8) : UInt8 :=
  (num / 16) * 10 + num % 16

def monthTable : List Nat :=
  [0, 3, 3, 6, 1, 4, 6, 2, 5, 0, 3, 5]

-- `month[bcd2bin(ts->month) - 1]`
def monthOffset (month : UInt8) : Option Nat :=
  if bcd2bin month = 0 then none else monthTable[(bcd2bin month).toNat - 1]?

def weekday (ts : Time) (month : Nat) : UInt8 :=
  let y          := (bcd2bin ts.year).toNat
  let year       := y + y / 4
  let century    := 2 * (3 - 20 % 4)
  let correction := if (y % 4 = 0 ∧ (y % 100 ≠ 0 ∨ y % 400 = 0)) ∧ bcd2bin ts.month < 3 then 6 else 0
  .ofNat <| (century + year + month + (bcd2bin ts.day).toNat + correction) % 7

def calculateWeekday : RtcM Unit := do
  match ← .gets fun m => monthOffset m.time.month with
  | none       => .fail .outOfBounds
  | some month => setTime fun t => { t with weekday := weekday t month }

def rtcInit : RtcM Unit := do
  let sec ← read .sec
  setTime fun t => { t with sec }
  let min ← read .min
  setTime fun t => { t with min }
  let hour ← read .hour
  setTime fun t => { t with hour }
  let day ← read .day
  setTime fun t => { t with day }
  let month ← read .month
  setTime fun t => { t with month }
  let year ← read .year
  setTime fun t => { t with year }
  let century ← read .century
  setTime fun t => { t with century }
  calculateWeekday

def rtcUpdate : RtcM Unit := do
  let sec ← read .sec
  setTime fun t => { t with sec }
  if sec = 0 then
    let min ← read .min
    setTime fun t => { t with min }
    if min = 0 then
      let hour ← read .hour
      setTime fun t => { t with hour }
      if hour = 0 then
        let day ← read .day
        setTime fun t => { t with day }
        if day = 1 then
          let month ← read .month
          setTime fun t => { t with month }
          if month = 1 then
            let year ← read .year
            setTime fun t => { t with year }
            if year = 1 then
              let century ← read .century
              setTime fun t => { t with century }
        calculateWeekday

def sint32Max : Int := 2 ^ 31 - 1

-- What the timer interrupt does before it updates the screen and calls the scheduler.
def timerHandler : RtcM Unit := do
  .modify fun m => { m with ticks := m.ticks + 1 }
  if (← .gets (·.ticks)) = sint32Max then
    .modify fun m => { m with ticks := 0 }
  rtcUpdate

-- The time without the century: what the registers contain, and the weekday of their date.
def Clock.weekday (c : Clock) (month : Nat) : UInt8 :=
  Rtc.weekday
    { sec := 0, min := 0, hour := 0, weekday := 0, day := bcd c.day, month := bcd c.month, year := bcd c.year, century := 0 }
    month

structure Shows (c : Clock) (t : Time) : Prop where
  sec     : t.sec = bcd c.sec
  min     : t.min = bcd c.min
  hour    : t.hour = bcd c.hour
  day     : t.day = bcd c.day
  month   : t.month = bcd c.month
  year    : t.year = bcd c.year
  weekday : ∀ k ∈ monthOffset (bcd c.month), t.weekday = c.weekday k

theorem Shows.unique {c : Clock} {t t' : Time} (hm : (monthOffset (bcd c.month)).isSome) (h : Shows c t)
    (h' : Shows c t') (hc : t.century = t'.century) : t = t' := by
  have ⟨k, hk⟩ := Option.isSome_iff_exists.mp hm
  have hw := (h.weekday k hk).trans (h'.weekday k hk).symm
  cases t
  cases t'
  simp only [Time.mk.injEq]
  exact ⟨h.sec.trans h'.sec.symm, h.min.trans h'.min.symm, h.hour.trans h'.hour.symm, hw, h.day.trans h'.day.symm,
    h.month.trans h'.month.symm, h.year.trans h'.year.symm, hc⟩

-- The months of a year have an entry in the table.
theorem monthOffset_isSome {m : Nat} (h : 1 ≤ m ∧ m ≤ 12) : (monthOffset (bcd m)).isSome := by
  have (m : Fin 13) : m.val ≠ 0 → (monthOffset (bcd m)).isSome := by
    revert m
    decide
  exact this ⟨m, by omega⟩ (by simp; omega)

def Clock.Midnight (c : Clock) : Prop :=
  c.sec = 0 ∧ c.min = 0 ∧ c.hour = 0

-- A field can be out of date only if all smaller ones have their first values.
structure Pending (c : Clock) (t : Time) : Prop where
  min     : ¬c.sec = 0 → t.min = bcd c.min
  hour    : ¬(c.sec = 0 ∧ c.min = 0) → t.hour = bcd c.hour
  day     : ¬c.Midnight → t.day = bcd c.day
  month   : ¬(c.Midnight ∧ c.day = 1) → t.month = bcd c.month
  year    : ¬(c.Midnight ∧ c.day = 1 ∧ c.month = 1) → t.year = bcd c.year
  weekday : ¬c.Midnight → ∀ k ∈ monthOffset (bcd c.month), t.weekday = c.weekday k

theorem Shows.pending {c : Clock} {t : Time} (h : Shows c t) : Pending c t where
  min _     := h.min
  hour _    := h.hour
  day _     := h.day
  month _   := h.month
  year _    := h.year
  weekday _ := h.weekday

theorem pending_of_midnight {c : Clock} {t : Time} (hm : c.Midnight) (hmonth : ¬c.day = 1 → t.month = bcd c.month)
    (hyear : ¬(c.day = 1 ∧ c.month = 1) → t.year = bcd c.year) : Pending c t where
  min h     := absurd hm.left h
  hour h    := absurd ⟨hm.left, hm.right.left⟩ h
  day h     := absurd hm h
  month h   := hmonth fun hd => h ⟨hm, hd⟩
  year h    := hyear fun hd => h ⟨hm, hd⟩
  weekday h := absurd hm h

-- The clock moves on to a larger field only when the smaller ones begin again.
theorem Shows.tick {c : Clock} {t : Time} (days : Clock → Nat) (h : Shows c t) : Pending (c.tick days) t := by
  have hour {P : Prop} (_ : P)  := h.hour
  have day {P : Prop} (_ : P)   := h.day
  have month {P : Prop} (_ : P) := h.month
  have year {P : Prop} (_ : P)  := h.year
  have weekday {P : Prop} (_ : P) := h.weekday
  unfold Clock.tick
  split_ifs
  case pos       => exact ⟨fun _ => h.min, hour, day, month, year, weekday⟩
  case pos       => exact ⟨absurd rfl, hour, day, month, year, weekday⟩
  case pos       => exact ⟨absurd rfl, absurd ⟨rfl, rfl⟩, day, month, year, weekday⟩
  case pos       => exact pending_of_midnight ⟨rfl, rfl, rfl⟩ month year
  case pos       => exact pending_of_midnight ⟨rfl, rfl, rfl⟩ (absurd rfl) year
  case pos | neg => exact pending_of_midnight ⟨rfl, rfl, rfl⟩ (absurd rfl) (absurd ⟨rfl, rfl⟩)

theorem wp_calculateWeekday {E : Fault → Machine → Prop} {m : Machine} {Q : Unit → Machine → Prop} {k : Nat}
    (hk : monthOffset m.time.month = some k) :
    calculateWeekday.wp Q E m ↔ Q () { m with time := { m.time with weekday := weekday m.time k } } := by
  simp only [calculateWeekday, Prog.wp_bind, Prog.wp_gets, hk, setTime, Prog.wp_modify]

-- What `rtc_init` reads.
theorem wp_rtcInit {m : Machine} (hm : (monthOffset (bcd m.clock.month)).isSome) :
    rtcInit.wp (fun _ m' => m'.clock = m.clock ∧ Shows m.clock m'.time ∧ m'.time.century = bcd m.clock.century)
      (fun _ _ => False) m := by
  have ⟨k, hk⟩ := Option.isSome_iff_exists.mp hm
  simp only [rtcInit, read, outb, inb, setTime, Prog.wp_bind, Prog.wp_gets, Prog.wp_modify, Clock.get]
  refine (wp_calculateWeekday (k := k) ?_).mpr ?_
  · exact hk
  refine ⟨rfl, ⟨rfl, rfl, rfl, rfl, rfl, rfl, fun k' hk' => ?_⟩, rfl⟩
  rw [Option.mem_def, hk] at hk'
  cases hk'
  rfl

-- Registers that do not show the first value of their fields.

theorem ne_zero_of_bcd {n : Nat} (h : ¬bcd n = 0) : ¬n = 0 :=
  fun he => h <| congrArg bcd he

theorem ne_one_of_bcd {n : Nat} (h : ¬bcd n = 1) : ¬n = 1 :=
  fun he => h <| congrArg bcd he

-- The registers of the date are all shown, once the weekday has been calculated.
theorem shows_weekday {c : Clock} {t : Time} {k : Nat} (hk : monthOffset (bcd c.month) = some k)
    (hs : t.sec = bcd c.sec) (hm : t.min = bcd c.min) (hh : t.hour = bcd c.hour) (hd : t.day = bcd c.day) (hmo : t.month = bcd c.month)
    (hy : t.year = bcd c.year) : Shows c { t with weekday := weekday t k } where
  sec          := hs
  min          := hm
  hour         := hh
  day          := hd
  month        := hmo
  year         := hy
  weekday _ h' := by
    rw [Option.mem_def, hk] at h'
    cases h'
    simp only [weekday, Clock.weekday, hd, hmo, hy]

-- What `rtc_update` changes. The century is read at the beginning of the year 1 of a century.
structure Updated (m m' : Machine) : Prop where
  clock   : m'.clock = m.clock
  shows   : Shows m.clock m'.time
  century : m'.time.century = bcd m.clock.century ∨ m'.time.century = m.time.century
  reads   : m.clock.Midnight ∧ m.clock.day = 1 ∧ m.clock.month = 1 ∧ m.clock.year = 1 →
    m'.time.century = bcd m.clock.century
  keeps   : m.clock.year = 0 → m'.time.century = m.time.century

-- An update that does not read the century.
theorem Updated.of_century {m m' : Machine} (hc : m'.clock = m.clock) (hs : Shows m.clock m'.time)
    (hsame : m'.time.century = m.time.century)
    (hn : ¬(m.clock.Midnight ∧ m.clock.day = 1 ∧ m.clock.month = 1 ∧ m.clock.year = 1)) : Updated m m' where
  clock   := hc
  shows   := hs
  century := .inr hsame
  reads h := absurd h hn
  keeps _ := hsame

-- The cases are those of the nested conditions, from the first one that fails to none.
theorem wp_rtcUpdate {m : Machine} (hm : (monthOffset (bcd m.clock.month)).isSome) (h : Pending m.clock m.time) :
    rtcUpdate.wp (fun _ => Updated m) (fun _ _ => False) m := by
  have ⟨k, hk⟩ := Option.isSome_iff_exists.mp hm
  simp only [rtcUpdate, read, outb, inb, setTime, Prog.wp_bind, Prog.wp_gets, Prog.wp_modify, Prog.wp_ite, Clock.get]
  by_cases hs : bcd m.clock.sec = 0
  case neg =>
    have hs' := ne_zero_of_bcd hs
    have hmid : ¬m.clock.Midnight := fun h => hs' h.left
    rw [if_neg hs]
    refine .of_century rfl ?_ rfl fun h => hmid h.left
    exact ⟨rfl, h.min hs', h.hour fun h => hs' h.left, h.day hmid, h.month fun h => hmid h.left,
      h.year fun h => hmid h.left, h.weekday hmid⟩
  rw [if_pos hs]
  by_cases hmin : bcd m.clock.min = 0
  case neg =>
    have hmin' := ne_zero_of_bcd hmin
    have hmid : ¬m.clock.Midnight := fun h => hmin' h.right.left
    rw [if_neg hmin]
    refine .of_century rfl ?_ rfl fun h => hmid h.left
    exact ⟨rfl, rfl, h.hour fun h => hmin' h.right, h.day hmid, h.month fun h => hmid h.left,
      h.year fun h => hmid h.left, h.weekday hmid⟩
  rw [if_pos hmin]
  by_cases hhour : bcd m.clock.hour = 0
  case neg =>
    have hmid : ¬m.clock.Midnight := fun h => ne_zero_of_bcd hhour h.right.right
    rw [if_neg hhour]
    refine .of_century rfl ?_ rfl fun h => hmid h.left
    exact ⟨rfl, rfl, rfl, h.day hmid, h.month fun h => hmid h.left, h.year fun h => hmid h.left, h.weekday hmid⟩
  rw [if_pos hhour]
  by_cases hday : bcd m.clock.day = 1
  case neg =>
    have hday' := ne_one_of_bcd hday
    have hmonth : m.time.month = bcd m.clock.month := h.month fun h => hday' h.right
    have hyear : m.time.year = bcd m.clock.year := h.year fun h => hday' h.right.left
    rw [if_neg hday]
    refine (wp_calculateWeekday (k := k) (hmonth ▸ hk)).mpr <| .of_century rfl ?_ rfl fun h => hday' h.right.left
    exact shows_weekday hk rfl rfl rfl rfl hmonth hyear
  rw [if_pos hday]
  by_cases hmonth : bcd m.clock.month = 1
  case neg =>
    have hmonth' := ne_one_of_bcd hmonth
    have hyear : m.time.year = bcd m.clock.year := h.year fun h => hmonth' h.right.right
    rw [if_neg hmonth]
    refine (wp_calculateWeekday (k := k) ?_).mpr <| .of_century rfl ?_ rfl fun h => hmonth' h.right.right.left
    · exact hk
    · exact shows_weekday hk rfl rfl rfl rfl rfl hyear
  rw [if_pos hmonth]
  by_cases hyear : bcd m.clock.year = 1
  case neg =>
    rw [if_neg hyear]
    refine (wp_calculateWeekday (k := k) ?_).mpr <|
      .of_century rfl ?_ rfl fun h => ne_one_of_bcd hyear h.right.right.right
    · exact hk
    · exact shows_weekday hk rfl rfl rfl rfl rfl rfl
  case pos =>
    rw [if_pos hyear]
    refine (wp_calculateWeekday (k := k) ?_).mpr ?_
    · exact hk
    · exact {
        clock   := rfl
        shows   := shows_weekday hk rfl rfl rfl rfl rfl rfl
        century := .inl rfl
        reads _ := rfl
        keeps h := absurd (h ▸ hyear) (by decide)
      }

theorem wp_timerHandler {m : Machine} (hm : (monthOffset (bcd m.clock.month)).isSome) (h : Pending m.clock m.time) :
    timerHandler.wp (fun _ => Updated m) (fun _ _ => False) m := by
  have hu (n : Int) := wp_rtcUpdate (m := { m with ticks := n }) hm h
  have post {n : Int} {m' : Machine} (hu : Updated { m with ticks := n } m') : Updated m m' :=
    ⟨hu.clock, hu.shows, hu.century, hu.reads, hu.keeps⟩
  simp only [timerHandler, Prog.wp_bind, Prog.wp_modify, Prog.wp_gets, Prog.wp_ite]
  split
  · exact Prog.wp_post (hu 0) fun _ _ => post
  · exact Prog.wp_post (hu (m.ticks + 1)) fun _ _ => post

structure Clock.Valid (c : Clock) : Prop where
  sec   : c.sec < 60
  min   : c.min < 60
  hour  : c.hour < 24
  day   : 1 ≤ c.day
  month : 1 ≤ c.month ∧ c.month ≤ 12
  year  : c.year < 100

theorem Clock.Valid.tick {c : Clock} (days : Clock → Nat) (h : c.Valid) : (c.tick days).Valid := by
  have ⟨hs, hm, hh, hd, hmo, hy⟩ := h
  unfold Clock.tick
  split_ifs
  all_goals constructor
  all_goals dsimp only
  all_goals omega

-- A run is a sequence of seconds and of timer interrupts. A second passes only if its time has been read.

inductive Event
  | second
  | interrupt
  deriving DecidableEq

structure Run where
  machine : Machine
  seen    : Bool

inductive Step (days : Clock → Nat) : Run → Event → Run → Prop
  | second {m : Machine} : Step days ⟨m, true⟩ .second ⟨{ m with clock := m.clock.tick days }, false⟩
  | interrupt {m m' : Machine} {seen : Bool} :
    timerHandler.run m = (.ok (), m') → Step days ⟨m, seen⟩ .interrupt ⟨m', true⟩

-- The century in the time structure. In the year 0 of a century it is the previous one, unless the clock was started
-- in this century.
def Clock.shownCentury (c : Clock) (start : Nat) : Nat :=
  if c.year = 0 ∧ c.century ≠ start then c.century - 1 else c.century

theorem Clock.shownCentury_of_year {c : Clock} {start : Nat} (h : ¬c.year = 0) : c.shownCentury start = c.century :=
  if_neg fun h' => h h'.left

def Clock.BeginsYearOne (c : Clock) : Prop :=
  c.Midnight ∧ c.day = 1 ∧ c.month = 1 ∧ c.year = 1

-- What holds in each state of a run that started in the century `start`.
structure Follows (start : Nat) (r : Run) : Prop where
  valid   : r.machine.clock.Valid
  since   : start ≤ r.machine.clock.century
  pending : Pending r.machine.clock r.machine.time
  shows   : r.seen = true → Shows r.machine.clock r.machine.time
  century : r.machine.time.century = bcd (r.machine.clock.shownCentury start) ∨
    r.seen = false ∧ r.machine.clock.BeginsYearOne

-- The century that is shown becomes wrong when the year 0 begins, and right again with the year 1.
theorem Clock.shownCentury_tick {c : Clock} {start : Nat} (days : Clock → Nat) (hs : start ≤ c.century) :
    (c.tick days).shownCentury start = c.shownCentury start ∨ (c.tick days).BeginsYearOne := by
  by_cases hy : c.year = 0
  case pos =>
    have hlt : c.year < 99 := by omega
    unfold Clock.tick
    split_ifs
    case pos | pos | pos | pos | pos => exact .inl rfl
    case neg                         => exact .inr ⟨⟨rfl, rfl, rfl⟩, rfl, rfl, congrArg (· + 1) hy⟩
  case neg =>
    refine .inl ?_
    rw [Clock.shownCentury_of_year hy]
    unfold Clock.tick
    split_ifs
    case pos | pos | pos | pos | pos => exact Clock.shownCentury_of_year hy
    case pos                         => exact Clock.shownCentury_of_year (Nat.succ_ne_zero c.year)
    case neg                         => exact if_pos ⟨rfl, Nat.ne_of_gt <| Nat.lt_succ_of_le hs⟩

theorem Clock.le_century_tick {c : Clock} (days : Clock → Nat) : c.century ≤ (c.tick days).century := by
  unfold Clock.tick
  split_ifs
  all_goals dsimp only
  all_goals omega

-- An interrupt leaves the right century in the time structure.
theorem Follows.century_eq {start : Nat} {m m' : Machine} {seen : Bool} (h : Follows start ⟨m, seen⟩)
    (hu : Updated m m') : m'.time.century = bcd (m.clock.shownCentury start) := by
  by_cases hy : m.clock.year = 0
  case pos =>
    have hc := h.century.resolve_right fun h => absurd (h.right.right.right.right.symm.trans hy) (by decide)
    exact (hu.keeps hy).trans hc
  case neg =>
    rw [Clock.shownCentury_of_year hy]
    rcases hu.century with hc | hc
    case inl => exact hc
    case inr =>
      rcases h.century with h' | ⟨_, hone⟩
      case inl => exact hc.trans <| h'.trans <| congrArg bcd <| Clock.shownCentury_of_year hy
      case inr => exact hu.reads hone

theorem Follows.step {days : Clock → Nat} {start : Nat} {r r' : Run} {e : Event} (h : Follows start r)
    (hs : Step days r e r') : Follows start r' := by
  cases hs with
  | second         =>
    exact {
      valid   := h.valid.tick days
      since   := Nat.le_trans h.since (Clock.le_century_tick days)
      pending := (h.shows rfl).tick days
      shows   := nofun
      century := by
        have hc := h.century.resolve_right (fun h => nomatch h.left)
        rcases Clock.shownCentury_tick days h.since with he | hone
        · exact .inl <| hc.trans <| congrArg bcd he.symm
        · exact .inr ⟨rfl, hone⟩
    }
  | interrupt hrun =>
    have hu := Prog.wp_ok (wp_timerHandler (monthOffset_isSome h.valid.month) h.pending) hrun
    have hc := hu.clock
    exact {
      valid   := hc ▸ h.valid
      since   := hc ▸ h.since
      pending := hc ▸ hu.shows.pending
      shows _ := hc ▸ hu.shows
      century := .inl <| hc ▸ h.century_eq hu
    }

-- The clock of a run has moved on once in each second.
theorem Follows.clock_eq {days : Clock → Nat} {start : Nat} {r r' : Run} {es : List Event} (h : Follows start r)
    (hs : Lts.Steps (Step days) r es r') :
    r'.machine.clock = (Clock.tick days)^[es.count .second] r.machine.clock := by
  induction hs
  case refl          => rfl
  case step hs _ hi =>
    rw [hi (h.step hs)]
    cases hs with
    | second         => rw [List.count_cons_self, Function.iterate_succ_apply]
    | interrupt hrun =>
      rw [(Prog.wp_ok (wp_timerHandler (monthOffset_isSome h.valid.month) h.pending) hrun).clock,
        List.count_cons_of_ne (by decide)]

theorem bcd_inj {n k : Nat} (hn : n < 100) (hk : k < 100) : bcd n = bcd k ↔ n = k := by
  constructor
  case mpr => exact congrArg bcd
  case mp  =>
    intro h
    have h := congrArg UInt8.toNat h
    simp only [bcd, UInt8.toNat_ofNat'] at h
    omega

-- Each state with a time that has been read can read it again.
theorem Follows.rtcInit {start : Nat} {r : Run} (h : Follows start r) :
    ∃ m, rtcInit.run r.machine = (.ok (), m) ∧ Shows r.machine.clock m.time ∧
      m.time.century = bcd r.machine.clock.century := by
  have ⟨_, m, hr, _, hs, hc⟩ := Prog.wp_total <| wp_rtcInit (monthOffset_isSome h.valid.month)
  exact ⟨m, hr, hs, hc⟩

theorem follows_rtcInit {m : Machine} (hv : m.clock.Valid) :
    Follows m.clock.century ⟨(Rtc.rtcInit.run m).2, true⟩ := by
  have ⟨_, m', hr, hclock, hs, hc⟩ := Prog.wp_total <| wp_rtcInit (monthOffset_isSome hv.month)
  rw [hr]
  exact {
    valid   := hclock ▸ hv
    since   := Nat.le_of_eq (congrArg Clock.century hclock).symm
    pending := hclock ▸ hs.pending
    shows _ := hclock ▸ hs
    century := .inl <| by
      rw [hclock, hc, Clock.shownCentury, if_neg fun h => h.right rfl]
  }

theorem Clock.shownCentury_eq_iff {c : Clock} {start : Nat} (hs : start ≤ c.century) :
    c.shownCentury start = c.century ↔ ¬(c.year = 0 ∧ c.century ≠ start) := by
  rw [Clock.shownCentury]
  split
  case isTrue h  => exact iff_of_false (by omega) (not_not_intro h)
  case isFalse h => exact iff_of_true rfl h

-- From the start at a valid time on, whenever the time has been read in a second, it is what would be read from the
-- clock, unless the year is the year 0 of a century in which the clock was not started.
theorem time_eq_iff {days : Clock → Nat} {m : Machine} {r : Run} {es : List Event} (hv : m.clock.Valid)
    (h : Lts.Steps (Step days) ⟨(Rtc.rtcInit.run m).2, true⟩ es r) (hs : r.seen = true)
    (hr : ((Clock.tick days)^[es.count .second] m.clock).century < 100) :
    r.machine.time = (Rtc.rtcInit.run r.machine).2.time ↔
      ¬(((Clock.tick days)^[es.count .second] m.clock).year = 0 ∧
        ((Clock.tick days)^[es.count .second] m.clock).century ≠ m.clock.century) := by
  have hi := follows_rtcInit hv
  have hclock : (Rtc.rtcInit.run m).2.clock = m.clock := by
    have ⟨_, _, hr, hclock, _⟩ := Prog.wp_total <| wp_rtcInit (monthOffset_isSome hv.month)
    rw [hr, hclock]
  have hc := hi.clock_eq h
  simp only [hclock] at hc
  rw [←hc] at hr ⊢
  have hf : Follows m.clock.century r := h.invariant hi fun _ _ _ h hs => h.step hs
  have ⟨m', hrun, hs', hc'⟩ := hf.rtcInit
  have hcentury := hf.century.resolve_right fun h => Bool.noConfusion (h.left.symm.trans hs)
  have hle : r.machine.clock.shownCentury m.clock.century < 100 := by
    rw [Clock.shownCentury]
    split <;> omega
  have hoff := monthOffset_isSome hf.valid.month
  rw [hrun, ←Clock.shownCentury_eq_iff hf.since, ←bcd_inj hle hr, ←hcentury, ←hc']
  exact ⟨congrArg Time.century, (hf.shows hs).unique hoff hs'⟩

-- At the beginning of the year 2000.

def newYearsEve : Machine where
  clock := { sec := 59, min := 59, hour := 23, day := 31, month := 12, year := 99, century := 19 }
  addr  := .sec
  time  := { sec := 0, min := 0, hour := 0, weekday := 0, day := 0, month := 0, year := 0, century := 0 }
  ticks := 0

theorem newYearsEve_valid : newYearsEve.clock.Valid := by
  constructor <;> decide

def newYear : Machine :=
  (timerHandler.run { (Rtc.rtcInit.run newYearsEve).2 with clock := newYearsEve.clock.tick fun _ => 31 }).2

theorem newYear_steps :
    Lts.Steps (Step fun _ => 31) ⟨(Rtc.rtcInit.run newYearsEve).2, true⟩ [.second, .interrupt] ⟨newYear, true⟩ :=
  .step .second <| .single <| .interrupt rfl

theorem time_eq_iff_newYear :
    newYear.time = (Rtc.rtcInit.run newYear).2.time ↔
      ¬((newYearsEve.clock.tick fun _ => 31).year = 0 ∧
        (newYearsEve.clock.tick fun _ => 31).century ≠ newYearsEve.clock.century) :=
  time_eq_iff newYearsEve_valid newYear_steps rfl (by decide)

-- The year 2000 is shown as 1900.
theorem newYear_differs :
    ¬∀ (days : Clock → Nat) (m : Machine) (es : List Event) (r : Run), m.clock.Valid →
      Lts.Steps (Step days) ⟨(Rtc.rtcInit.run m).2, true⟩ es r → r.seen = true → r.machine.clock.century < 100 →
      r.machine.time = (Rtc.rtcInit.run r.machine).2.time :=
  fun h => absurd (h _ _ _ _ newYearsEve_valid newYear_steps rfl (by decide)) (by decide)

end Io.Rtc
