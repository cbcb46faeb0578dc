import KeyValue.Config
import Mathlib.Algebra.Group.Nat.Defs

namespace KeyValue

-- A span has its whole seconds in 64 bits.
def Clock.IsSpan (span : Nat) : Prop := Clock.toSeconds span < 18446744073709551616

instance : DecidablePred Clock.IsSpan := fun _ => inferInstanceAs (Decidable (_ < _))

theorem Clock.IsSpan.of_le {shorter longer : Nat} (h : Clock.IsSpan longer)
    (hle : shorter ≤ longer) : Clock.IsSpan shorter :=
  Nat.lt_of_le_of_lt (Nat.div_le_div_right hle) h

namespace Sweeper

-- What a sweep finds: how many keys have deadlines, and how many of these are due.
structure Outcome where
  expiring : Nat
  evicted : Nat
deriving DecidableEq

namespace Settings

variable {settings : Settings} {interval : Nat} {outcomes idle : List Outcome}

def after (settings : Settings) (interval : Nat) (outcome : Outcome) : Nat :=
  settings.nextInterval interval outcome.expiring outcome.evicted

-- The interval that is used after sweeps with these outcomes, from the start.
def intervalAfter (settings : Settings) (outcomes : List Outcome) : Nat :=
  outcomes.foldl settings.after settings.base

structure Allows (settings : Settings) (interval : Nat) : Prop where
  shortest_le : settings.shortest ≤ interval
  le_longest : interval ≤ settings.longest

-- The interval at the start is allowed, and twice the longest one is still a span.
structure Sound (settings : Settings) : Prop where
  base_allowed : settings.Allows settings.base
  doubles : Clock.IsSpan (settings.longest * 2)

-- Only the upper bound is looked at where the interval is doubled, and only the lower one where
-- it is halved. The other bound holds because the interval was between them, and they in order.
theorem Allows.after (h : settings.Allows interval) (outcome : Outcome) :
    settings.Allows (settings.after interval outcome) := by
  obtain ⟨hshortest, hlongest⟩ := h
  rw [Settings.after, nextInterval]
  split
  · exact ⟨Nat.le_min.mpr ⟨by omega, by omega⟩, Nat.min_le_right ..⟩
  · split
    · exact ⟨Nat.le_max_right .., Nat.max_le.mpr ⟨by omega, by omega⟩⟩
    · exact ⟨hshortest, hlongest⟩

theorem Allows.foldl_after (h : settings.Allows interval) (outcomes : List Outcome) :
    settings.Allows (outcomes.foldl settings.after interval) := by
  induction outcomes generalizing interval with
  | nil => exact h
  | cons outcome rest ih => exact ih (h.after outcome)

theorem Sound.allows_intervalAfter (h : settings.Sound) (outcomes : List Outcome) :
    settings.Allows (settings.intervalAfter outcomes) :=
  h.base_allowed.foldl_after outcomes

theorem Sound.isSpan_double (h : settings.Sound) (outcomes : List Outcome) :
    Clock.IsSpan (settings.intervalAfter outcomes * 2) :=
  h.doubles.of_le (Nat.mul_le_mul_right 2 (h.allows_intervalAfter outcomes).le_longest)

-- While nothing is evicted the interval doubles, as far as it may.
theorem foldl_after_idle (hidle : ∀ outcome ∈ idle, outcome.evicted = 0)
    (hle : interval ≤ settings.longest) :
    idle.foldl settings.after interval = min (interval * 2 ^ idle.length) settings.longest := by
  induction idle generalizing interval with
  | nil => simp [Nat.min_eq_left hle]
  | cons outcome rest ih =>
      obtain ⟨houtcome, hrest⟩ := List.forall_mem_cons.mp hidle
      have hstep : settings.after interval outcome = min (interval * 2) settings.longest := by
        rw [Settings.after, nextInterval, if_pos houtcome]
      have hpow : interval * 2 ^ (outcome :: rest).length = interval * 2 * 2 ^ rest.length := by
        rw [List.length_cons, Nat.pow_succ', Nat.mul_assoc]
      have hpos : 0 < 2 ^ rest.length := Nat.two_pow_pos _
      rw [List.foldl_cons, hstep, ih hrest (Nat.min_le_right ..), hpow]
      obtain hbelow | habove := Nat.le_total (interval * 2) settings.longest
      · rw [Nat.min_eq_left hbelow]
      · rw [Nat.min_eq_right habove, Nat.min_eq_right (Nat.le_mul_of_pos_right _ hpos),
          Nat.min_eq_right (Nat.le_trans habove (Nat.le_mul_of_pos_right _ hpos))]

theorem Sound.intervalAfter_append_idle (h : settings.Sound) (outcomes : List Outcome)
    (hidle : ∀ outcome ∈ idle, outcome.evicted = 0) :
    settings.intervalAfter (outcomes ++ idle) =
      min (settings.intervalAfter outcomes * 2 ^ idle.length) settings.longest := by
  rw [intervalAfter, List.foldl_append]
  exact foldl_after_idle hidle (h.allows_intervalAfter outcomes).le_longest

-- However short the interval has become, as many idle sweeps as the longest one has nanoseconds
-- are more than enough.
theorem Sound.intervalAfter_append_idle_eq_longest (h : settings.Sound)
    (hpos : 0 < settings.shortest) (outcomes : List Outcome)
    (hidle : ∀ outcome ∈ idle, outcome.evicted = 0) (hlong : settings.longest ≤ idle.length) :
    settings.intervalAfter (outcomes ++ idle) = settings.longest := by
  have hinterval : 0 < settings.intervalAfter outcomes :=
    Nat.lt_of_lt_of_le hpos (h.allows_intervalAfter outcomes).shortest_le
  rw [h.intervalAfter_append_idle outcomes hidle, Nat.min_eq_right]
  calc settings.longest ≤ idle.length := hlong
    _ ≤ 2 ^ idle.length := Nat.le_of_lt Nat.lt_two_pow_self
    _ ≤ settings.intervalAfter outcomes * 2 ^ idle.length := Nat.le_mul_of_pos_left _ hinterval

theorem sound_around {base : Nat} (h : Clock.IsSpan (base * 2)) : (around base).Sound := by
  refine ⟨⟨Nat.min_le_left .., Nat.le_max_left ..⟩, ?_⟩
  obtain hle | hle := Nat.le_total base default.longest
  · simp only [around, Nat.max_eq_right hle]
    decide
  · simpa only [around, Nat.max_eq_left hle] using h

end Settings

def outcome (sweeper : Sweeper) (store : Store) : Outcome :=
  ⟨store.stats.expiring, (store.purge sweeper.next).1⟩

-- What the sweeps find that are due before an instant, in order, each at its own instant and
-- in the store that the one before has left.
def outcomesBefore (sweeper : Sweeper) (instant : Nat) (store : Store) : List Outcome :=
  if sweeper.running ∧ sweeper.next < instant then
    let swept := sweeper.sweep store
    sweeper.outcome store :: swept.1.outcomesBefore instant swept.2
  else []
termination_by instant - sweeper.next
decreasing_by
  have hwake := Clock.le_wake
    (sweeper.next + max (sweeper.sweep store).1.interval 1)
  simp only [sweep] at hwake ⊢
  omega

-- The sweepers that started with some settings, with what their sweeps have found, whatever
-- happened to the store between them.
inductive Swept (settings : Settings) : List Outcome → Sweeper → Prop
  | start (now : Nat) : Swept settings [] (start now settings)
  | sweep {outcomes : List Outcome} {sweeper : Sweeper} (store : Store) :
      Swept settings outcomes sweeper →
      Swept settings (outcomes ++ [sweeper.outcome store]) (sweeper.sweep store).1
  | stop {outcomes : List Outcome} {sweeper : Sweeper} :
      Swept settings outcomes sweeper → Swept settings outcomes sweeper.stop

variable {settings : Settings} {outcomes : List Outcome} {sweeper : Sweeper}

theorem Swept.settings_eq (h : Swept settings outcomes sweeper) : sweeper.settings = settings := by
  induction h with
  | start now => rfl
  | sweep store _ ih => exact ih
  | stop _ ih => exact ih

theorem Swept.interval_eq (h : Swept settings outcomes sweeper) :
    sweeper.interval = settings.intervalAfter outcomes := by
  induction h with
  | start now => rfl
  | @sweep outcomes sweeper store hswept ih =>
      rw [Settings.intervalAfter, List.foldl_append, ← Settings.intervalAfter, ← ih,
        ← hswept.settings_eq]
      rfl
  | stop _ ih => exact ih

-- No sweep is left out, and none is made before it is due.
theorem Swept.advance (h : Swept settings outcomes sweeper) (instant : Nat) (store : Store) :
    Swept settings (outcomes ++ sweeper.outcomesBefore instant store)
      (sweeper.advance instant store).1 := by
  fun_induction Sweeper.advance sweeper instant store generalizing outcomes with
  | case1 sweeper store hdue swept =>
      rename_i ih
      rw [outcomesBefore, if_pos hdue, List.append_cons]
      exact ih (h.sweep store)
  | case2 sweeper store hdue =>
      rw [outcomesBefore, if_neg hdue, List.append_nil]
      exact h

theorem le_next_advance (sweeper : Sweeper) (instant : Nat) (store : Store)
    (h : (sweeper.advance instant store).1.running = true) :
    instant ≤ (sweeper.advance instant store).1.next := by
  fun_induction Sweeper.advance sweeper instant store with
  | case1 sweeper store hdue swept =>
      rename_i ih
      exact ih h
  | case2 sweeper store hdue => exact Nat.not_lt.mp fun hlt => hdue ⟨h, hlt⟩

theorem running_advance (sweeper : Sweeper) (instant : Nat) (store : Store) :
    (sweeper.advance instant store).1.running = sweeper.running := by
  fun_induction Sweeper.advance sweeper instant store with
  | case1 sweeper store hdue swept =>
      rename_i ih
      exact ih
  | case2 sweeper store hdue => rfl

-- Waking is never early.
theorem next_add_interval_le (sweeper : Sweeper) (store : Store) :
    sweeper.next + (sweeper.sweep store).1.interval ≤ (sweeper.sweep store).1.next :=
  Nat.le_trans (Nat.add_le_add_left (Nat.le_max_left ..) _) (Clock.le_wake _)

theorem sound_sweeperSettings (config : Config) : config.sweeperSettings.Sound := by
  have hlt := config.sweepInterval.toNat_lt
  refine Settings.sound_around ?_
  simp only [Clock.IsSpan, Clock.toSeconds, Config.sweepEvery, Clock.millis]
  omega

theorem millis_one_le_shortest (config : Config) :
    Clock.millis 1 ≤ config.sweeperSettings.shortest :=
  Nat.le_min.mpr ⟨Nat.mul_le_mul_right _ (Nat.le_max_right ..), by decide⟩

-- Whatever the sweeps find, the intervals between them stay within the bounds and can be
-- doubled, and sweeps that evict nothing bring the longest one about. As time goes on, all sweeps
-- are made that are due, as long as the sweeper runs. Every configuration has such bounds, with a
-- millisecond between two sweeps at the least.
theorem intervals_bounded :
    (∀ config : Config, config.sweeperSettings.Sound ∧
      Clock.millis 1 ≤ config.sweeperSettings.shortest) ∧
    ∀ settings : Settings, settings.Sound →
      (∀ outcomes, settings.Allows (settings.intervalAfter outcomes) ∧
        Clock.IsSpan (settings.intervalAfter outcomes * 2)) ∧
      (∀ outcomes sweeper, Swept settings outcomes sweeper →
        sweeper.interval = settings.intervalAfter outcomes ∧
        ∀ store, sweeper.next + settings.shortest ≤ (sweeper.sweep store).1.next ∧
          ∀ instant,
            Swept settings (outcomes ++ sweeper.outcomesBefore instant store)
              (sweeper.advance instant store).1 ∧
            (sweeper.advance instant store).1.running = sweeper.running ∧
            (sweeper.running = true → instant ≤ (sweeper.advance instant store).1.next)) ∧
      (∀ outcomes idle, (∀ outcome ∈ idle, outcome.evicted = 0) →
        settings.intervalAfter (outcomes ++ idle) =
          min (settings.intervalAfter outcomes * 2 ^ idle.length) settings.longest) ∧
      (0 < settings.shortest → ∃ count, ∀ outcomes idle,
        (∀ outcome ∈ idle, outcome.evicted = 0) → count ≤ idle.length →
        settings.intervalAfter (outcomes ++ idle) = settings.longest) := by
  refine ⟨fun config => ⟨sound_sweeperSettings config, millis_one_le_shortest config⟩,
    fun settings hsound => ⟨?_, ?_, ?_, ?_⟩⟩
  · exact fun outcomes =>
      ⟨hsound.allows_intervalAfter outcomes, hsound.isSpan_double outcomes⟩
  · refine fun outcomes sweeper hswept => ⟨hswept.interval_eq, fun store =>
      ⟨?_, fun instant => ⟨hswept.advance instant store, running_advance sweeper instant store,
        fun hrunning => le_next_advance sweeper instant store
          ((running_advance sweeper instant store).trans hrunning)⟩⟩⟩
    have hshortest : settings.shortest ≤ (sweeper.sweep store).1.interval := by
      rw [(hswept.sweep store).interval_eq]
      exact (hsound.allows_intervalAfter _).shortest_le
    exact Nat.le_trans (Nat.add_le_add_left hshortest _) (next_add_interval_le sweeper store)
  · exact fun outcomes idle hidle => hsound.intervalAfter_append_idle outcomes hidle
  · exact fun hpos => ⟨settings.longest, fun outcomes idle hidle hlong =>
      hsound.intervalAfter_append_idle_eq_longest hpos outcomes hidle hlong⟩

-- No interval at all is asked for, which makes it a millisecond, and the longest one that can be.
theorem extreme_intervals_bounded :
    let least := { Config.default with sweepInterval := 0 }.sweeperSettings
    let most := { Config.default with sweepInterval := 18446744073709551615 }.sweeperSettings
    let idle := List.replicate 10 (Outcome.mk 3 0)
    (∀ outcome ∈ idle, outcome.evicted = 0) ∧
    least.Sound ∧ least.base = Clock.millis 1 ∧ least.longest = Clock.seconds 1 ∧
    least.intervalAfter idle = Clock.seconds 1 ∧
    most.Sound ∧ most.shortest = Clock.millis 10 ∧ most.longest = most.base ∧
    (∀ outcomes, most.Allows (most.intervalAfter outcomes) ∧
      Clock.IsSpan (most.intervalAfter outcomes * 2)) ∧
    (start 7 most).interval = most.intervalAfter [] ∧
    (∃ count, ∀ outcomes idle, (∀ outcome ∈ idle, outcome.evicted = 0) → count ≤ idle.length →
      most.intervalAfter (outcomes ++ idle) = most.longest) := by
  intro least most idle
  have hidle : ∀ outcome ∈ idle, outcome.evicted = 0 := by decide
  obtain ⟨hconfig, hall⟩ := intervals_bounded
  have hleast : least.Sound := (hconfig _).1
  have hmost : most.Sound := (hconfig _).1
  obtain ⟨-, -, hleastIdle, -⟩ := hall least hleast
  obtain ⟨hbounds, hswept, -, hreach⟩ := hall most hmost
  have hpos : 0 < most.shortest := Nat.lt_of_lt_of_le (by decide) (hconfig _).2
  have hdoubled := hleastIdle [] idle hidle
  rw [List.nil_append] at hdoubled
  have hlongest : min (least.intervalAfter [] * 2 ^ idle.length) least.longest =
      Clock.seconds 1 := by decide +zetaReduce
  exact ⟨hidle, hleast, rfl, by decide +zetaReduce, hdoubled.trans hlongest, hmost,
    by decide +zetaReduce, by decide +zetaReduce, hbounds, (hswept [] _ (.start 7)).1, hreach hpos⟩

end Sweeper

end KeyValue
