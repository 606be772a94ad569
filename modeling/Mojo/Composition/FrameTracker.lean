import Mathlib.Tactic.Linarith
import Mathlib.Data.Int.Basic

/-!
# Tracking frames

A frame tracker corrects the times of a frame: they do not lie in the future, frames
that were missed are stepped past, and frame and presentation times do not go back.
The deadline is not corrected with the frame time when that goes back.
-/

namespace Mojo.Composition

def int64 (x : ℤ) : ℤ := (x + 2 ^ 63) % 2 ^ 64 - 2 ^ 63

def uint64 (x : ℤ) : ℕ := (x % 2 ^ 64).toNat

structure FrameInfo where
  frameTime : ℤ := 0
  frameInterval : ℕ := 0
  frameDeadline : ℤ := 0
  presentationTime : ℤ := 0

namespace FrameInfo

def sane (raw : FrameInfo) (now : ℤ) : FrameInfo :=
  let frameTime := min raw.frameTime now
  let frameDeadline := max raw.frameDeadline frameTime
  { raw with frameTime, frameDeadline, presentationTime := max raw.presentationTime frameDeadline }

def compensated (f : FrameInfo) (now : ℤ) : FrameInfo :=
  let lag := uint64 (now - f.frameTime)
  if 0 < f.frameInterval ∧ f.frameInterval ≤ lag then
    let offset := lag % f.frameInterval
    let adjustment := uint64 (now - offset - f.frameTime)
    { f with
      frameTime := int64 (now - offset)
      frameDeadline := int64 (f.frameDeadline + adjustment)
      presentationTime := int64 (f.presentationTime + adjustment) }
  else f

end FrameInfo

structure FrameTracker where
  frameCount : ℕ := 0
  frameInfo : FrameInfo := {}
  frameTimeDelta : ℤ := 0

def FrameTracker.update (t : FrameTracker) (raw : FrameInfo) (now : ℤ) : FrameTracker :=
  let f := (raw.sane now).compensated now
  let frameCount := (t.frameCount + 1) % 2 ^ 64
  if t.frameCount = 0 then { t with frameCount, frameInfo := f }
  else
    let frameTime := max f.frameTime t.frameInfo.frameTime
    let presentationTime := max f.presentationTime t.frameInfo.presentationTime
    { frameCount
      frameInfo := { f with frameTime, presentationTime }
      frameTimeDelta := int64 (frameTime - t.frameInfo.frameTime) }

inductive FrameEvent
  | clear
  | update (raw : FrameInfo) (now : ℤ)

def FrameTracker.step (t : FrameTracker) : FrameEvent → FrameTracker
  | .clear => {}
  | .update raw now => t.update raw now

def track : List FrameEvent → FrameTracker
  | [] => {}
  | e :: es => (track es).step e

def FrameEvent.isUpdate : FrameEvent → Bool
  | .update _ _ => true
  | .clear => false

structure Small (raw : FrameInfo) (now : ℤ) : Prop where
  nonneg : 0 ≤ now
  now : now < 2 ^ 61
  frameTime : |raw.frameTime| < 2 ^ 61
  frameDeadline : |raw.frameDeadline| < 2 ^ 61
  presentationTime : |raw.presentationTime| < 2 ^ 61

def Clocked : List FrameEvent → Prop
  | [] => True
  | .clear :: es => Clocked es
  | .update raw now :: es =>
    Small raw now ∧ (∀ raw' now', .update raw' now' ∈ es → now' ≤ now) ∧ Clocked es

/-- The whole intervals between the time of a frame and the time at which it is seen. -/
def FrameInfo.skipped (raw : FrameInfo) (now : ℤ) : ℤ :=
  (now - min raw.frameTime now) / raw.frameInterval * raw.frameInterval

def FrameInfo.steppedTime (raw : FrameInfo) (now : ℤ) : ℤ :=
  min raw.frameTime now + raw.skipped now

def FrameInfo.steppedDeadline (raw : FrameInfo) (now : ℤ) : ℤ :=
  max raw.frameDeadline (min raw.frameTime now) + raw.skipped now

def FrameInfo.Ordered (f : FrameInfo) : Prop :=
  f.frameTime ≤ f.frameDeadline ∧ f.frameDeadline ≤ f.presentationTime

structure Compensated (raw : FrameInfo) (now : ℤ) (f : FrameInfo) : Prop where
  interval : f.frameInterval = raw.frameInterval
  past : f.frameTime ≤ now
  low : -2 ^ 61 < f.frameTime
  recent : 0 < raw.frameInterval → now - f.frameTime < raw.frameInterval
  time : f.frameTime = raw.steppedTime now
  deadline : f.frameDeadline = raw.steppedDeadline now
  ordered : f.Ordered

theorem int64_eq {x : ℤ} (h : -2 ^ 63 ≤ x) (h' : x < 2 ^ 63) : int64 x = x := by
  unfold int64
  omega

theorem uint64_eq {x : ℤ} (h : 0 ≤ x) (h' : x < 2 ^ 64) : (uint64 x : ℤ) = x := by
  unfold uint64
  omega

variable {raw : FrameInfo} {now : ℤ} {es : List FrameEvent}

theorem compensated_spec (h : Small raw now) :
    Compensated raw now ((raw.sane now).compensated now) := by
  obtain ⟨hnonneg, hnow, htime, hdeadline, hpresentation⟩ := h
  rw [abs_lt] at htime hdeadline hpresentation
  have hlag : (uint64 (now - min raw.frameTime now) : ℤ) = now - min raw.frameTime now :=
    uint64_eq (by omega) (by omega)
  obtain ⟨lag, heq⟩ : ∃ lag, uint64 (now - min raw.frameTime now) = lag := ⟨_, rfl⟩
  rw [heq] at hlag
  have hskipped : raw.skipped now = lag - (lag % raw.frameInterval : ℕ) := by
    have := Int.ediv_mul_add_emod lag raw.frameInterval
    rw [FrameInfo.skipped, ← hlag, Int.natCast_mod]
    omega
  simp only [FrameInfo.compensated, FrameInfo.sane, heq]
  split_ifs with hskip
  · have hmod := Nat.mod_lt lag hskip.1
    have hle := Nat.mod_le lag raw.frameInterval
    have hstep : now - (lag % raw.frameInterval : ℕ) - min raw.frameTime now =
        lag - (lag % raw.frameInterval : ℕ) := by
      omega
    rw [hstep, uint64_eq (by omega) (by omega), int64_eq (by omega) (by omega),
      int64_eq (by omega) (by omega), int64_eq (by omega) (by omega)]
    refine ⟨rfl, ?_, ?_, fun _ => ?_, ?_, ?_, ?_, ?_⟩ <;>
      simp only [FrameInfo.steppedTime, FrameInfo.steppedDeadline, hskipped] <;> omega
  · have hnone : raw.skipped now = 0 := by
      by_cases hzero : raw.frameInterval = 0
      · simp [FrameInfo.skipped, hzero]
      · rw [hskipped, Nat.mod_eq_of_lt (by omega), sub_self]
    refine ⟨rfl, ?_, ?_, fun _ => ?_, ?_, ?_, ?_, ?_⟩ <;>
      simp only [FrameInfo.steppedTime, FrameInfo.steppedDeadline, hnone] <;> omega

theorem Compensated.steps {f : FrameInfo} (h : Compensated raw now f) :
    (raw.frameInterval : ℤ) ∣ f.frameTime - min raw.frameTime now := by
  rw [h.time, FrameInfo.steppedTime, add_sub_cancel_left]
  exact Dvd.intro_left _ rfl

theorem track_le (h : Clocked es) (hnow : 0 ≤ now)
    (hlast : ∀ raw' now', .update raw' now' ∈ es → now' ≤ now) :
    (track es).frameInfo.frameTime ≤ now ∧ -2 ^ 61 < (track es).frameInfo.frameTime := by
  induction es with
  | nil => exact ⟨hnow, by decide⟩
  | cons e es ih =>
    cases e with
    | clear => exact ⟨hnow, by norm_num [track, FrameTracker.step]⟩
    | update raw now' =>
      obtain ⟨hsmall, -, hclocked⟩ := h
      obtain ⟨-, hpast, hlow, -⟩ := compensated_spec hsmall
      have hbefore := ih hclocked fun raw' n hmem => hlast raw' n (.tail _ hmem)
      have hle := hlast raw now' (.head _)
      simp only [track, FrameTracker.step, FrameTracker.update]
      split_ifs <;> dsimp only <;> omega

theorem frameCount_le (es : List FrameEvent) :
    (track es).frameCount ≤ es.countP FrameEvent.isUpdate := by
  induction es with
  | nil => exact le_rfl
  | cons e es ih =>
    cases e with
    | clear => exact Nat.zero_le _
    | update raw now =>
      have := Nat.mod_le ((track es).frameCount + 1) (2 ^ 64)
      rw [List.countP_cons_of_pos rfl]
      simp only [track, FrameTracker.step, FrameTracker.update]
      split_ifs <;> dsimp only <;> omega

def follows : List FrameEvent → Bool
  | .update _ _ :: _ => true
  | _ => false

theorem track_of_not_follows (h : follows es = false) : track es = {} := by
  cases es with
  | nil => rfl
  | cons e es => cases e <;> first | rfl | cases h

theorem frameCount_ne_zero (h : follows es) (hcount : es.countP FrameEvent.isUpdate < 2 ^ 64) :
    (track es).frameCount ≠ 0 := by
  cases es with
  | nil => cases h
  | cons e es =>
    cases e with
    | clear => cases h
    | update raw now =>
      have hle := frameCount_le es
      rw [List.countP_cons_of_pos rfl] at hcount
      simp only [track, FrameTracker.step, FrameTracker.update]
      split_ifs <;> dsimp only <;> omega

/-- Frame times do not run ahead or back, and frames that were missed are stepped past. -/
theorem update_smooth (h : Clocked (.update raw now :: es))
    (hcount : es.countP FrameEvent.isUpdate + 1 < 2 ^ 64) :
    let t := track es
    let t' := track (.update raw now :: es)
    t'.frameInfo.frameInterval = raw.frameInterval ∧ t'.frameInfo.frameTime ≤ now ∧
      (0 < raw.frameInterval → now - t'.frameInfo.frameTime < raw.frameInterval) ∧
      (follows es = true → t.frameInfo.frameTime ≤ t'.frameInfo.frameTime ∧
        t.frameInfo.presentationTime ≤ t'.frameInfo.presentationTime) ∧
      t'.frameTimeDelta =
        (if follows es then t'.frameInfo.frameTime - t.frameInfo.frameTime else 0) ∧
      (follows es = true ∧ t'.frameInfo.frameTime = t.frameInfo.frameTime ∨
        (raw.frameInterval : ℤ) ∣ t'.frameInfo.frameTime - min raw.frameTime now) := by
  obtain ⟨hsmall, hlast, hclocked⟩ := h
  have hsteps := (compensated_spec hsmall).steps
  obtain ⟨hinterval, hpast, hlow, hrecent, -⟩ := compensated_spec hsmall
  have hnow := hsmall.now
  dsimp only
  cases hfollows : follows es with
  | false =>
    rw [track, track_of_not_follows hfollows]
    exact ⟨hinterval, hpast, hrecent, by simp, rfl, .inr hsteps⟩
  | true =>
    obtain ⟨hbefore, hbefore'⟩ := track_le hclocked hsmall.nonneg hlast
    simp only [track, FrameTracker.step, FrameTracker.update,
      if_neg (frameCount_ne_zero hfollows (by omega))]
    refine ⟨hinterval, max_le hpast hbefore, fun hpos => ?_, fun _ =>
      ⟨le_max_right _ _, le_max_right _ _⟩, ?_, ?_⟩
    · have := hrecent hpos
      omega
    · exact int64_eq (by omega) (by omega)
    · rcases max_choice ((raw.sane now).compensated now).frameTime (track es).frameInfo.frameTime
          with hmax | hmax
      · exact .inr (by rwa [hmax])
      · exact .inl ⟨trivial, hmax⟩

theorem update_smooth_lagging :
    let t := track [.update ⟨10, 7, 10, 10⟩ 30]
    let t' := track [.update ⟨25, 7, 25, 25⟩ 40, .update ⟨10, 7, 10, 10⟩ 30]
    t.frameInfo.frameTime ≤ t'.frameInfo.frameTime ∧ t'.frameInfo.frameTime ≤ 40 ∧
      t'.frameTimeDelta = t'.frameInfo.frameTime - t.frameInfo.frameTime := by
  have hsmooth := @update_smooth ⟨25, 7, 25, 25⟩ 40 [.update ⟨10, 7, 10, 10⟩ 30]
    ⟨by constructor <;> simp, by simp, by constructor <;> simp, by simp, trivial⟩
    (by decide)
  exact ⟨(hsmooth.2.2.2.1 rfl).1, hsmooth.2.1, hsmooth.2.2.2.2.1⟩

/-- The updates since the last clear, the last one first. `frame_count_` is an unsigned
number of 64 bits; when it wraps, the next update counts as the first one again. -/
def recent : List FrameEvent → List (FrameInfo × ℤ)
  | [] => []
  | .clear :: _ => []
  | .update raw now :: es =>
    if (recent es).length + 1 = 2 ^ 64 then [] else (raw, now) :: recent es

theorem recent_length (es : List FrameEvent) :
    (recent es).length = (track es).frameCount ∧ (recent es).length < 2 ^ 64 := by
  induction es with
  | nil => exact ⟨rfl, by decide⟩
  | cons e es ih =>
    cases e with
    | clear => exact ⟨rfl, Nat.two_pow_pos 64⟩
    | update raw now =>
      obtain ⟨hcount, hlt⟩ := ih
      have hnext : (track (.update raw now :: es)).frameCount =
          ((track es).frameCount + 1) % 2 ^ 64 := by
        simp only [track, FrameTracker.step, FrameTracker.update]
        split_ifs <;> rfl
      rw [hnext, ← hcount, recent]
      split_ifs with hwrap
      · rw [hwrap]
        exact ⟨rfl, by decide⟩
      · rw [List.length_cons, Nat.mod_eq_of_lt (by omega)]
        exact ⟨rfl, by omega⟩

theorem frameTime_update (h : Small raw now) (t : FrameTracker) :
    (t.update raw now).frameInfo.frameTime =
      if t.frameCount = 0 then raw.steppedTime now
      else max (raw.steppedTime now) t.frameInfo.frameTime := by
  rw [← (compensated_spec h).time, FrameTracker.update]
  split_ifs <;> rfl

-- The time of the frame is the latest of those that count.
theorem frameTime_le_iff (h : Clocked es) (hne : recent es ≠ []) (d : ℤ) :
    (track es).frameInfo.frameTime ≤ d ↔ ∀ u ∈ recent es, u.1.steppedTime u.2 ≤ d := by
  induction es with
  | nil => exact absurd rfl hne
  | cons e es ih =>
    cases e with
    | clear => exact absurd rfl hne
    | update raw now =>
      obtain ⟨hsmall, -, hclocked⟩ := h
      have hcount := (recent_length es).1
      rw [recent] at hne ⊢
      split_ifs at hne ⊢ with hwrap
      · exact absurd rfl hne
      rw [track, FrameTracker.step, frameTime_update hsmall, ← hcount, List.forall_mem_cons]
      by_cases hempty : recent es = []
      · simp [hempty]
      · rw [if_neg (by simpa using hempty), max_le_iff, ih hclocked hempty]

theorem update_ordered_iff (h : Small raw now) (t : FrameTracker) :
    (t.update raw now).frameInfo.Ordered ↔
      (t.frameCount = 0 ∨ t.frameInfo.frameTime ≤ raw.steppedDeadline now) := by
  have hspec := compensated_spec h
  have hdeadline := hspec.deadline
  obtain ⟨htime, hpresentation⟩ := hspec.ordered
  simp only [FrameTracker.update, FrameInfo.Ordered]
  split_ifs with hfirst
  · simp [hfirst, htime, hpresentation]
  · simp only [hfirst, false_or]
    omega

theorem clocked_of_suffix {es' : List FrameEvent} (h : Clocked es) (hsuffix : es' <:+ es) :
    Clocked es' := by
  induction es with
  | nil => rwa [List.suffix_nil.mp hsuffix]
  | cons e es ih =>
    rcases List.suffix_cons_iff.mp hsuffix with rfl | hrest
    · exact h
    · cases e with
      | clear => exact ih h hrest
      | update raw now => exact ih h.2.2 hrest

/-- The times of all frames of a run are in order if and only if the deadline of a frame
is never before the time of a frame that it is compared with. -/
theorem frames_ordered_iff (h : Clocked es) :
    (∀ raw now es', .update raw now :: es' <:+ es →
      (track (.update raw now :: es')).frameInfo.Ordered) ↔
    ∀ raw now es', .update raw now :: es' <:+ es →
      ∀ u ∈ recent es', u.1.steppedTime u.2 ≤ raw.steppedDeadline now := by
  refine forall₄_congr fun raw now es' hsuffix => ?_
  obtain ⟨hsmall, -, hclocked⟩ := clocked_of_suffix h hsuffix
  rw [track, FrameTracker.step, update_ordered_iff hsmall, ← (recent_length es').1]
  by_cases hempty : recent es' = []
  · simp [hempty]
  · rw [frameTime_le_iff hclocked hempty, List.length_eq_zero_iff, or_iff_right hempty]

theorem frames_ordered_later :
    (track [.update ⟨110, 0, 130, 120⟩ 140, .update ⟨100, 0, 100, 100⟩ 100]).frameInfo.Ordered := by
  have hclocked : Clocked [.update ⟨110, 0, 130, 120⟩ 140, .update ⟨100, 0, 100, 100⟩ 100] :=
    ⟨by constructor <;> simp, by simp, by constructor <;> simp, by simp, trivial⟩
  refine (frames_ordered_iff hclocked).mpr ?_ _ _ _ (List.suffix_refl _)
  simp only [List.suffix_cons_iff, List.suffix_nil, List.cons.injEq, FrameEvent.update.injEq]
  rintro raw now es' (⟨⟨rfl, rfl⟩, rfl⟩ | ⟨⟨rfl, rfl⟩, rfl⟩ | h)
  · decide
  · decide
  · cases h

theorem deadline_before_frameTime :
    ¬ (track [.update ⟨90, 0, 95, 99⟩ 100, .update ⟨100, 0, 100, 100⟩ 100]).frameInfo.Ordered := by
  unfold FrameInfo.Ordered
  decide

end Mojo.Composition
