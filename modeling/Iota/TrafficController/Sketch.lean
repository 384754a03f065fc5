import Iota.Lib.Run
import Iota.Types.Basic

/-! Requests are counted in a circular buffer of sketches, which is rotated when a request comes.
Times are in nanoseconds, and the requests of a sketch are kept instead of estimated counts. -/
namespace Iota.TrafficController
open List

structure Request (κ : Type) where
  key : κ
  time : Nat
deriving DecidableEq

structure TrafficSketch (κ : Type) where
  sketches : List (List (Request κ))
  windowSize : Nat
  updateInterval : Nat
  lastResetTime : Nat
  currentSketchIndex : Nat

variable {κ : Type}

def fromSecs (n : Nat) : Nat := n * 10 ^ 9

def asSecs (duration : Nat) : Nat := duration / 10 ^ 9

namespace TrafficSketch

def new (windowSize updateInterval now : Nat) : Except Panic (TrafficSketch κ) :=
  -- the division by zero
  if asSecs updateInterval = 0 then .error .panic
  else
    let numSketches := asSecs windowSize / asSecs updateInterval
    let windowSize := fromSecs (numSketches * asSecs updateInterval)
    if windowSize < fromSecs 600 ∧ updateInterval < windowSize ∧ fromSecs 1 ≤ updateInterval ∧
        numSketches ≤ 10 then
      .ok ⟨replicate numSketches [],windowSize,updateInterval,now,0⟩
    else .error .panic

variable (s : TrafficSketch κ)

def rotateWindow (now : Nat) : TrafficSketch κ :=
  let index := (s.currentSketchIndex+1) % s.sketches.length
  { s with
    currentSketchIndex := index
    sketches := s.sketches.set index []
    lastResetTime := now }

/-- The loop rotates once for each interval that has elapsed since the last reset. -/
def expire (now : Nat) : TrafficSketch κ :=
  (fun s : TrafficSketch κ => s.rotateWindow now)^[(now - s.lastResetTime) / s.updateInterval] s

def incrementCount (r : Request κ) : TrafficSketch κ :=
  let s := s.expire r.time
  { s with
    sketches := s.sketches.set s.currentSketchIndex
      (r :: s.sketches[s.currentSketchIndex]?.getD []) }

def age (j : Nat) : Nat :=
  if j ≤ s.currentSketchIndex then s.currentSketchIndex - j
  else s.currentSketchIndex + s.sketches.length - j

end TrafficSketch

theorem flatten_set_perm {l : List (List (Request κ))} {i : Nat} (hi : i < l.length)
    (x : List (Request κ)) : ((l.set i x).flatten ++ l[i]).Perm (l.flatten ++ x) := by
  induction l generalizing i with
  | nil => exact absurd hi (Nat.not_lt_zero i)
  | cons y l ih =>
    cases i with
    | zero =>
      simp only [set_cons_zero,flatten_cons,getElem_cons_zero,append_assoc]
      exact (perm_append_comm_assoc _ _ _).trans
        ((perm_append_comm.append_left l.flatten).trans (perm_append_comm_assoc _ _ _))
    | succ i =>
      simp only [set_cons_succ,flatten_cons,getElem_cons_succ,append_assoc]
      exact (ih (Nat.lt_of_succ_lt_succ hi)).append_left y

/-- What is held when the current sketch was started at time `start`. -/
structure Windowed (s : TrafficSketch κ) (history : List (Request κ)) (start : Nat) : Prop where
  two : 2 ≤ s.sketches.length
  interval : 0 < s.updateInterval
  window : s.windowSize = fromSecs (s.sketches.length * asSecs s.updateInterval)
  index : s.currentSketchIndex < s.sketches.length
  times : ∀ j, ∀ r ∈ s.sketches[j]?.getD [],
    start ≤ r.time + s.age j * s.updateInterval ∧
      r.time + s.age j * s.updateInterval < start + s.updateInterval
  lost : ∃ lost, history.Perm (s.sketches.flatten ++ lost) ∧
    ∀ r ∈ lost, r.time + (s.sketches.length - 1) * s.updateInterval < start

section Windowed
open TrafficSketch (age rotateWindow)
variable {s : TrafficSketch κ} {history : List (Request κ)} {start : Nat}

theorem next_index (hc : s.currentSketchIndex < s.sketches.length) :
    (s.currentSketchIndex+1) % s.sketches.length =
      if s.currentSketchIndex+1 < s.sketches.length then s.currentSketchIndex+1 else 0 := by
  split
  · exact Nat.mod_eq_of_lt ‹_›
  · rw [show s.currentSketchIndex+1 = s.sketches.length by omega,Nat.mod_self]

theorem Windowed.rotate (h : Windowed s history start) (now : Nat) :
    Windowed (s.rotateWindow now) history (start + s.updateInterval) := by
  have hn := next_index h.index
  have hlt := Nat.mod_lt (s.currentSketchIndex+1) (Nat.zero_lt_of_lt h.two)
  refine ⟨by simpa [rotateWindow] using h.two,h.interval,
    by simpa [rotateWindow] using h.window,
    by simpa [rotateWindow] using hlt,?_,?_⟩
  · intro j r hr
    simp only [rotateWindow,List.getElem?_set] at hr
    split at hr
    · cases hr
    · next hne =>
      have hj : j < s.sketches.length := by
        by_contra hj
        simp [List.getElem?_eq_none (Nat.le_of_not_lt hj)] at hr
      have ha : (s.rotateWindow now).age j = s.age j + 1 := by
        have hc := h.index
        rw [hn] at hne
        simp only [age,rotateWindow,hn,length_set]
        split_ifs at hne ⊢ <;> omega
      obtain ⟨hol,hy⟩ := h.times j r hr
      rw [ha,Nat.succ_mul]
      dsimp only [rotateWindow]
      omega
  · -- the oldest sketch is cleared
    obtain ⟨lost,hp,hl⟩ := h.lost
    have hs := flatten_set_perm hlt []
    rw [append_nil] at hs
    refine ⟨s.sketches.get ⟨_,hlt⟩ ++ lost,?_,?_⟩
    · rw [← append_assoc]
      exact hp.trans (hs.symm.append_right lost)
    simp only [rotateWindow,length_set]
    intro r hr
    rcases mem_append.mp hr with hr | hr
    · have ho : s.age ((s.currentSketchIndex+1) % s.sketches.length) =
          s.sketches.length - 1 := by
        have hc := h.index
        rw [hn,age]
        split_ifs <;> omega
      rw [← ho]
      exact (h.times _ r (by rwa [List.getElem?_eq_getElem hlt])).2
    · exact (hl r hr).trans_le (Nat.le_add_right _ _)

theorem Windowed.iterate (h : Windowed s history start) (now k : Nat) :
    Windowed ((fun s : TrafficSketch κ => s.rotateWindow now)^[k] s) history
        (start + k * s.updateInterval) ∧
      ((fun s : TrafficSketch κ => s.rotateWindow now)^[k] s).updateInterval = s.updateInterval ∧
      ((fun s : TrafficSketch κ => s.rotateWindow now)^[k] s).lastResetTime =
        if k = 0 then s.lastResetTime else now := by
  induction k with
  | zero => exact ⟨by simpa using h,rfl,rfl⟩
  | succ k ih =>
    obtain ⟨hk,hi,-⟩ := ih
    rw [Function.iterate_succ_apply']
    refine ⟨?_,hi,rfl⟩
    have hn := hk.rotate now
    rwa [hi,Nat.add_assoc,← Nat.succ_mul] at hn

/-- A request that comes within the interval or a whole number of intervals after the reset. -/
def Aligned (s : TrafficSketch κ) (now : Nat) : Prop :=
  s.updateInterval ≤ now - s.lastResetTime → s.updateInterval ∣ now - s.lastResetTime

theorem Windowed.expire {now : Nat} (h : Windowed s history s.lastResetTime)
    (hn : s.lastResetTime ≤ now) (ha : Aligned s now) :
    Windowed (s.expire now) history (s.expire now).lastResetTime ∧
      (s.expire now).lastResetTime ≤ now ∧
      now < (s.expire now).lastResetTime + (s.expire now).updateInterval := by
  obtain ⟨hw,hi,hr⟩ := h.iterate now ((now - s.lastResetTime) / s.updateInterval)
  have hp := h.interval
  unfold TrafficSketch.expire
  rw [hi,hr]
  by_cases hlt : now - s.lastResetTime < s.updateInterval
  · simp only [Nat.div_eq_of_lt hlt,if_true,Nat.zero_mul,Nat.add_zero] at hw ⊢
    exact ⟨hw,hn,by omega⟩
  obtain ⟨q,hq⟩ := ha (Nat.le_of_not_lt hlt)
  have hq0 : q ≠ 0 := by
    rintro rfl
    omega
  rw [hq,Nat.mul_div_cancel_left q hp] at hw ⊢
  rw [if_neg hq0]
  rw [Nat.mul_comm q,← hq,Nat.add_sub_of_le hn] at hw
  exact ⟨hw,le_rfl,by omega⟩

theorem Windowed.increment {r : Request κ} (h : Windowed s history start)
    (hs : start ≤ r.time) (hlt : r.time < start + s.updateInterval) :
    Windowed { s with
      sketches := s.sketches.set s.currentSketchIndex
        (r :: s.sketches[s.currentSketchIndex]?.getD []) } (r :: history) start := by
  have hc : s.age s.currentSketchIndex = 0 := by simp [age]
  refine ⟨by simpa using h.two,h.interval,by simpa using h.window,by simpa using h.index,?_,?_⟩
  · intro j r' hr
    simp only [age,length_set,List.getElem?_set] at hr ⊢
    split at hr
    · next heq =>
      subst heq
      rw [if_pos h.index,Option.getD_some] at hr
      rcases mem_cons.mp hr with rfl | hr
      · simpa using ⟨hs,hlt⟩
      · exact h.times _ r' hr
    · exact h.times j r' hr
  · obtain ⟨lost,hp,hl⟩ := h.lost
    refine ⟨lost,?_,by simpa using hl⟩
    have hst := flatten_set_perm h.index (r :: s.sketches.get ⟨_,h.index⟩)
    have hps : (r :: s.sketches.flatten).Perm _ :=
      (perm_append_right_iff _).mp (perm_middle.symm.trans hst.symm)
    rw [List.getElem?_eq_getElem h.index,Option.getD_some]
    exact (hp.cons r).trans (hps.append_right lost)

end Windowed

/-- The sketch with all requests so far and the time of the last one. -/
structure Traffic (κ : Type) where
  sketch : TrafficSketch κ
  history : List (Request κ)
  clock : Nat

namespace Traffic

def Started (s : Traffic κ) : Prop :=
  ∃ windowSize updateInterval, TrafficSketch.new windowSize updateInterval s.clock = .ok s.sketch ∧
    s.history = []

def request (s : Traffic κ) (r : Request κ) : Except Panic (Traffic κ) :=
  .ok ⟨s.sketch.incrementCount r,r :: s.history,r.time⟩

structure Served (s : Traffic κ) : Prop where
  windowed : Windowed s.sketch s.history s.sketch.lastResetTime
  reset : s.sketch.lastResetTime ≤ s.clock
  clock : s.clock < s.sketch.lastResetTime + s.sketch.updateInterval

variable {s s' : Traffic κ}

theorem Served.request {r : Request κ} (h : s.Served) (hc : s.clock ≤ r.time)
    (ha : Aligned s.sketch r.time) (hs : s.request r = .ok s') : s'.Served := by
  cases hs
  obtain ⟨he,hr,hlt⟩ := h.windowed.expire (h.reset.trans hc) ha
  exact ⟨he.increment hr hlt,hr,hlt⟩

end Traffic
end Iota.TrafficController
