import Mathlib.Algebra.Order.BigOperators.Group.Finset
import Mathlib.Data.Nat.Dist
import Nekros.Neki

/-! How a weight answers to waste. The CPU's weight falls as its waste grows; those of RAM and
GPU are averaged with the waste itself and rise with it. -/
namespace Nekros.NekiWeights
open Words Fixed Neki

def sampleCount (s : State) : Nat := min s.windowFilled nekiWindow

theorem analyseCounted (s : State) :
    nekiAnalyse s = if sampleCount s = 0 then some s else analyseSamples s (sampleCount s) := by
  have count : (if s.windowFilled < nekiWindow then s.windowFilled else nekiWindow) = sampleCount s := by
    unfold sampleCount
    split <;> omega
  rw [nekiAnalyse,count]

theorem emaExact {w x : Nat} (weight : w < 2^64) (signal : x < 2^64) (small : 3 * Nat.dist x w < 2^64) :
    emaStep w x = if w < x then w + (x - w) * 3 / 64 else max 1 (w - (w - x) * 3 / 64) := by
  unfold Nat.dist at small
  unfold emaStep emaAlphaNum emaAlphaDen
  dsimp only
  split
  · rw [wrapOfLt (show (x - w) * 3 < 2^64 by omega),wrapOfLt (by omega)]
  · rw [wrapOfLt (show (w - x) * 3 < 2^64 by omega),show q16 0 = 0 from rfl]
    split <;> omega

theorem emaPlain {w x : Nat} (weight : w ≤ q16 4) (signal : x ≤ q16 2) :
    emaStep w x = if w < x then w + (x - w) * 3 / 64 else max 1 (w - (w - x) * 3 / 64) := by
  have four : q16 4 = 262144 := rfl
  have two : q16 2 = 131072 := rfl
  rw [four] at weight
  rw [two] at signal
  refine emaExact (by omega) (by omega) ?_
  unfold Nat.dist
  omega

/- A weight moves by whole units, three sixty-fourths of the way to the signal. From the signal
`t - 1` to `t` it goes up by one, unless both weights are cut to a quarter. -/
def Turning (w t : Nat) : Prop :=
  1 ≤ t ∧ ∃ k, 1 ≤ k ∧ (t = w + (64 * k + 2) / 3 ∨ k ≤ w - q16 1 / 4 ∧ t + (64 * k + 2) / 3 = w + 1)

theorem unitsMoved (k y : Nat) : k ≤ y * 3 / 64 ↔ (64 * k + 2) / 3 ≤ y := by
  rw [Nat.le_div_iff_mul_le (by decide)]
  omega

theorem weightPlain {w x : Nat} (range : q16 1 / 4 ≤ w ∧ w ≤ q16 4) (signal : x ≤ q16 2) :
    clampWeight (emaStep w x) =
      if w < x then w + (x - w) * 3 / 64 else max 16384 (w - (w - x) * 3 / 64) := by
  have quarter : q16 1 / 4 = 16384 := rfl
  have four : q16 4 = 262144 := rfl
  have two : q16 2 = 131072 := rfl
  have zero : q16 0 = 0 := rfl
  rw [clampWeight,emaPlain range.2 signal,zero,quarter,four]
  rw [quarter,four] at range
  rw [two] at signal
  split <;> omega

theorem weightTurns {w x x' : Nat} (range : q16 1 / 4 ≤ w ∧ w ≤ q16 4) (signal : x ≤ q16 2)
    (signal' : x' ≤ q16 2) :
    clampWeight (emaStep w x) < clampWeight (emaStep w x') ↔ ∃ t, Turning w t ∧ x < t ∧ t ≤ x' := by
  rw [weightPlain range signal,weightPlain range signal']
  have quarter : q16 1 / 4 = 16384 := rfl
  unfold Turning
  rw [quarter] at range ⊢
  constructor
  · intro rises
    by_cases above : w < x' ∧ 1 ≤ (x' - w) * 3 / 64
    · -- The weight goes up: the last unit of it is gained at this signal.
      generalize moved : (x' - w) * 3 / 64 = k at above rises
      have reached := (unitsMoved k (x' - w)).mp (by omega)
      have missed : w < x → ¬ (64 * k + 2) / 3 ≤ x - w := fun up => by
        rw [← unitsMoved]
        rw [if_pos above.1,if_pos up] at rises
        omega
      exact ⟨w + (64 * k + 2) / 3,⟨by omega,k,above.2,Or.inl rfl⟩,by omega,by omega⟩
    · -- It goes down from `w` by `k` units, and not so far with the second signal.
      generalize atFirst : (if w < x then w + (x - w) * 3 / 64 else max 16384 (w - (w - x) * 3 / 64)) = v
        at rises
      have below : x ≤ w ∧ v < w ∧ 16384 ≤ v ∧ w - v ≤ (w - x) * 3 / 64 := by
        split at atFirst <;> split at rises <;> omega
      have reached := (unitsMoved (w - v) (w - x)).mp below.2.2.2
      have missed : x' ≤ w → ¬ (64 * (w - v) + 2) / 3 ≤ w - x' := fun down => by
        rw [← unitsMoved]
        rw [if_neg (by omega : ¬ w < x')] at rises
        omega
      exact ⟨w + 1 - (64 * (w - v) + 2) / 3,
        ⟨by omega,w - v,by omega,Or.inr ⟨by omega,by omega⟩⟩,by omega,by omega⟩
  · rintro ⟨t,⟨_,k,some,up | ⟨few,down⟩⟩,before,after⟩
    · have reached := (unitsMoved k (x' - w)).mpr (by omega)
      have missed := mt (unitsMoved k (x - w)).mp (by omega)
      rw [if_pos (by omega : w < x')]
      split <;> omega
    · have reached := (unitsMoved k (w - x)).mpr (by omega)
      have missed := mt (unitsMoved k (w - x')).mp (by omega)
      rw [if_neg (by omega : ¬ w < x)]
      split <;> omega

structure LessGranted (d : Dimension) (s s' : State) : Prop where
  filled : s'.windowFilled = s.windowFilled
  weight : d.weight s' = d.weight s
  demand : ∀ i < sampleCount s, d.demand (s'.window i) = d.demand (s.window i)
  granted : ∀ i < sampleCount s, d.granted (s'.window i) ≤ d.granted (s.window i)

theorem countSame {d : Dimension} {s s' : State} (less : LessGranted d s s') :
    sampleCount s' = sampleCount s := by
  rw [sampleCount,sampleCount,less.filled]

theorem wastesMore {d : Dimension} {s s' : State} (less : LessGranted d s s') :
    demanded d s'.window (sampleCount s) = demanded d s.window (sampleCount s) ∧
      wastedIn d s.window (sampleCount s) ≤ wastedIn d s'.window (sampleCount s) := by
  constructor
  · exact Finset.sum_congr rfl fun i mem => less.demand i (Finset.mem_range.mp mem)
  · refine Finset.sum_le_sum fun i mem => ?_
    have granted := less.granted i (Finset.mem_range.mp mem)
    rw [less.demand i (Finset.mem_range.mp mem)]
    unfold wasted
    split <;> split <;> omega

def signalOf (d : Dimension) (s : State) : Option Nat :=
  wasteSignal (d.usage (tally s.window (sampleCount s)))

def averaged (d : Dimension) (w signal : Nat) : Nat :=
  clampWeight (emaStep w (if d = .cpu then reflected signal else signal))

theorem weightSource {s t : State} (d : Dimension) (ran : nekiAnalyse s = some t)
    (some : sampleCount s ≠ 0) : ∃ x, signalOf d s = .some x ∧ d.weight t = averaged d (d.weight s) x := by
  rw [analyseCounted,if_neg some] at ran
  obtain ⟨cpuSignal,ramSignal,gpuSignal,source⟩ := analyseSource ran
  cases d with
  | cpu => exact ⟨cpuSignal,source.cpu,source.alpha⟩
  | ram => exact ⟨ramSignal,source.ram,source.beta⟩
  | gpu => exact ⟨gpuSignal,source.gpu,source.gamma⟩

/- Where the waste ratio goes over a point at which the weight turns. The ratio is `q16` of the waste
by a sixty-fourth of the demand, up to `q16 2`; that of the CPU counts from `q16 1` downwards. -/
def Raised (d : Dimension) (s s' : State) : Prop :=
  let n := sampleCount s
  let demand := wrap (demanded d s.window n)
  let waste := q16 (wrap (wastedIn d s.window n))
  let waste' := q16 (wrap (wastedIn d s'.window n))
  demand ≠ 0 ∧ ∃ t, Turning (d.weight s) t ∧
    if d = .cpu then
      t ≤ q16 1 ∧ waste' < (q16 2 + 1 - t) * (demand / 64) ∧ (q16 2 + 1 - t) * (demand / 64) ≤ waste
    else t ≤ q16 2 ∧ waste < t * (demand / 64) ∧ t * (demand / 64) ≤ waste'

theorem signalCases {demand waste x : Nat} (signal : wasteSignal ⟨demand,waste⟩ = some x) :
    x ≤ q16 2 ∧ (demand = 0 → x = q16 1) ∧
      (demand ≠ 0 → ∀ t ≤ q16 2, t ≤ x ↔ t * (demand / 64) ≤ q16 waste) := by
  unfold wasteSignal at signal
  dsimp only at signal
  split at signal
  · next used =>
      obtain ⟨ratio,divided,rfl⟩ := Option.map_eq_some_iff.mp signal
      obtain ⟨some,rfl⟩ := divideSome.mp divided
      refine ⟨min_le_left _ _,fun none => absurd none used,fun _ t capped => ?_⟩
      rw [le_min_iff,Nat.le_div_iff_mul_le (Nat.pos_of_ne_zero some)]
      exact and_iff_right capped
  · next idle =>
      cases signal
      exact ⟨by decide,fun _ => rfl,fun used => absurd used idle⟩

theorem reflectedExact {x : Nat} (capped : x ≤ q16 2) :
    reflected x = if q16 1 < x then q16 2 - x else q16 1 := by
  have one : q16 1 = 65536 := rfl
  have two : q16 2 = 131072 := rfl
  rw [two] at capped ⊢
  rw [reflected,one]
  split
  · rw [sub64OfLe (by omega) (by decide)]
    omega
  · rfl

theorem reflectedTurns {x x' t : Nat} (capped : x ≤ q16 2) (capped' : x' ≤ q16 2) :
    reflected x < t ∧ t ≤ reflected x' ↔ t ≤ q16 1 ∧ x' < q16 2 + 1 - t ∧ q16 2 + 1 - t ≤ x := by
  have one : q16 1 = 65536 := rfl
  have two : q16 2 = 131072 := rfl
  rw [reflectedExact capped,reflectedExact capped']
  rw [two] at capped capped' ⊢
  rw [one]
  split <;> split <;> omega

theorem averagedTurns {d : Dimension} {w x x' : Nat} (range : q16 1 / 4 ≤ w ∧ w ≤ q16 4)
    (capped : x ≤ q16 2) (capped' : x' ≤ q16 2) :
    averaged d w x < averaged d w x' ↔ ∃ t, Turning w t ∧
      if d = .cpu then t ≤ q16 1 ∧ x' < q16 2 + 1 - t ∧ q16 2 + 1 - t ≤ x
      else t ≤ q16 2 ∧ x < t ∧ t ≤ x' := by
  unfold averaged
  by_cases cpu : d = .cpu
  · have low {y : Nat} (small : y ≤ q16 2) : reflected y ≤ q16 2 := by
      rw [reflectedExact small]
      split
      · exact Nat.sub_le _ _
      · decide
    simp only [if_pos cpu]
    rw [weightTurns range (low capped) (low capped')]
    exact exists_congr fun t => and_congr_right fun _ => reflectedTurns capped capped'
  · simp only [if_neg cpu]
    rw [weightTurns range capped capped']
    refine exists_congr fun t => and_congr_right fun _ => ?_
    exact ⟨fun h => ⟨h.2.trans capped',h⟩,fun h => h.2⟩

theorem raisedExact {d : Dimension} {s s' : State} {x x' : Nat} (less : LessGranted d s s')
    (range : q16 1 / 4 ≤ d.weight s ∧ d.weight s ≤ q16 4) (signal : signalOf d s = some x)
    (signal' : signalOf d s' = some x') :
    averaged d (d.weight s) x < averaged d (d.weight s) x' ↔ Raised d s s' := by
  unfold signalOf at signal signal'
  rw [countSame less,tallySums,(wastesMore less).1] at signal'
  rw [tallySums] at signal
  obtain ⟨capped,idle,ratio⟩ := signalCases signal
  obtain ⟨capped',idle',ratio'⟩ := signalCases signal'
  by_cases none : wrap (demanded d s.window (sampleCount s)) = 0
  · rw [idle none,idle' none]
    exact ⟨fun lt => absurd lt (Nat.lt_irrefl _),fun raised => absurd none raised.1⟩
  · rw [averagedTurns range capped capped',Raised]
    refine Iff.trans (exists_congr fun t => and_congr_right fun turning => ?_) (and_iff_right none).symm
    split
    · refine and_congr_right fun small => ?_
      have inside : q16 2 + 1 - t ≤ q16 2 := by
        have some := turning.1
        omega
      rw [← not_le,ratio' none _ inside,ratio none _ inside,not_le]
    · refine and_congr_right fun inside => ?_
      rw [← not_le,ratio none t inside,ratio' none t inside,not_le]

theorem moreWasteLowersExact {d : Dimension} {s s' t t' : State} (less : LessGranted d s s')
    (range : q16 1 / 4 ≤ d.weight s ∧ d.weight s ≤ q16 4)
    (ran : nekiAnalyse s = some t) (ran' : nekiAnalyse s' = some t') :
    (d.weight t' ≤ d.weight t ↔ ¬ Raised d s s') ∧
      (d = .cpu → wastedIn d s'.window (sampleCount s') < 2^48 → d.weight t' ≤ d.weight t) := by
  have exactly : d.weight t' ≤ d.weight t ↔ ¬ Raised d s s' := by
    by_cases none : sampleCount s = 0
    · rw [analyseCounted,if_pos none] at ran
      rw [analyseCounted,if_pos ((countSame less).trans none)] at ran'
      cases ran
      cases ran'
      have idle : wrap (demanded d s.window (sampleCount s)) = 0 := by
        rw [none]
        rfl
      exact ⟨fun _ raised => raised.1 idle,fun _ => Nat.le_of_eq less.weight⟩
    · obtain ⟨x,signal,weight⟩ := weightSource d ran none
      obtain ⟨x',signal',weight'⟩ := weightSource d ran' (countSame less ▸ none)
      rw [weight,weight',less.weight,← not_lt,raisedExact less range signal signal']
  refine ⟨exactly,?_⟩
  rintro rfl fits
  rw [exactly]
  rintro ⟨_,_,_,_,below,above⟩
  -- Nothing wraps, so the second waste is the larger one and goes over every point the first does.
  obtain ⟨_,more⟩ := wastesMore less
  rw [countSame less] at fits
  have scaled {x : Nat} (small : x < 2^48) : q16 (wrap x) = 65536 * x := by
    rw [wrapOfLt (by omega),q16OfLt small]
  rw [scaled fits] at below
  rw [scaled (Nat.lt_of_le_of_lt more fits)] at above
  omega

def eightSamples (cpuGranted ramGranted gpuGranted : Nat) : State :=
  {nekiCalibInit loaded with
    window := fun i => ⟨64,cpuGranted,64,ramGranted,64,gpuGranted,i⟩,windowFilled := 8}

theorem moreWasteLowersAlpha : ∃ t t', nekiAnalyse (eightSamples 64 64 64) = some t ∧
    nekiAnalyse (eightSamples 0 64 64) = some t' ∧ Dimension.cpu.weight t' ≤ Dimension.cpu.weight t := by
  have returned : (nekiAnalyse (eightSamples 64 64 64)).isSome ∧
      (nekiAnalyse (eightSamples 0 64 64)).isSome := by decide +kernel
  obtain ⟨t,ran⟩ := Option.isSome_iff_exists.mp returned.1
  obtain ⟨t',ran'⟩ := Option.isSome_iff_exists.mp returned.2
  refine ⟨t,t',ran,ran',?_⟩
  have less : LessGranted .cpu (eightSamples 64 64 64) (eightSamples 0 64 64) :=
    ⟨rfl,rfl,fun _ _ => rfl,fun _ _ => Nat.zero_le _⟩
  exact (moreWasteLowersExact less (by decide) ran ran').2 rfl (by decide +kernel)

theorem moreWasteRaisesBeta : LessGranted .ram (eightSamples 64 64 64) (eightSamples 64 0 64) ∧
    (nekiAnalyse (eightSamples 64 64 64)).map Dimension.ram.weight = some 62464 ∧
    (nekiAnalyse (eightSamples 64 0 64)).map Dimension.ram.weight = some 68608 := by
  refine ⟨⟨rfl,rfl,fun _ _ => rfl,fun _ _ => Nat.zero_le _⟩,?_,?_⟩ <;> decide +kernel

def repeated (signal k w : Nat) : Nat := (fun w => emaStep w signal)^[k] w

theorem emaToward {w s : Nat} (pos : 1 ≤ w) (word : w < 2^64) (signal : s < 2^64) (small : 3 * Nat.dist s w < 2^64) :
    1 ≤ emaStep w s ∧ (w ≤ s → w ≤ emaStep w s ∧ emaStep w s ≤ s) ∧ (s ≤ w → s ≤ emaStep w s ∧ emaStep w s ≤ w) ∧
      (emaStep w s = w ↔ Nat.dist s w ≤ 21) := by
  rw [emaExact word signal small]
  unfold Nat.dist
  split <;> omega

structure Between (w s x : Nat) : Prop where
  pos : 1 ≤ x
  up : w ≤ s → w ≤ x ∧ x ≤ s
  down : s ≤ w → s ≤ x ∧ x ≤ w

section Constant
variable {w s : Nat} (pos : 1 ≤ w) (word : w < 2^64) (signal : s < 2^64) (small : 3 * Nat.dist s w < 2^64)

include word signal small in
theorem betweenStep {x : Nat} (h : Between w s x) :
    Between w s (emaStep x s) ∧ (w ≤ s → x ≤ emaStep x s) ∧ (s ≤ w → emaStep x s ≤ x) ∧
      (emaStep x s = x ↔ Nat.dist s x ≤ 21) ∧ (emaStep x s = x ∨ Nat.dist s (emaStep x s) < Nat.dist s x) := by
  obtain ⟨one,up,down⟩ := h
  have near : Nat.dist s x ≤ Nat.dist s w := by
    unfold Nat.dist
    omega
  obtain ⟨one',up',down',still⟩ := emaToward one (show x < 2^64 by omega) signal (by omega)
  refine ⟨⟨one',fun le => ?_,fun le => ?_⟩,fun le => ?_,fun le => ?_,still,?_⟩
  · have inside := up le
    have next := up' inside.2
    omega
  · have inside := down le
    have next := down' inside.1
    omega
  · exact (up' (up le).2).1
  · exact (down' (down le).1).2
  · unfold Nat.dist
    omega

include pos word signal small in
theorem betweenAlways (k : Nat) : Between w s (repeated s k w) := by
  induction k with
  | zero => exact ⟨pos,fun le => ⟨Nat.le_refl w,le⟩,fun le => ⟨le,Nat.le_refl w⟩⟩
  | succ k ih =>
      rw [repeated,Function.iterate_succ_apply']
      exact (betweenStep word signal small ih).1

include pos word signal small in
theorem emaConverges :
    (w ≤ s → Monotone (fun k => repeated s k w) ∧ ∀ k, w ≤ repeated s k w ∧ repeated s k w ≤ s) ∧
      (s ≤ w → Antitone (fun k => repeated s k w) ∧ ∀ k, s ≤ repeated s k w ∧ repeated s k w ≤ w) ∧
      ∃ n, Nat.dist s (repeated s n w) ≤ 21 ∧ ∀ k, n ≤ k → repeated s k w = repeated s n w := by
  have inside := betweenAlways pos word signal small
  have next (k : Nat) := betweenStep word signal small (inside k)
  have turn (k : Nat) : repeated s (k+1) w = emaStep (repeated s k w) s := Function.iterate_succ_apply' _ k w
  refine ⟨fun le => ⟨monotone_nat_of_le_succ fun k => ?_,fun k => (inside k).up le⟩,
    fun le => ⟨antitone_nat_of_succ_le fun k => ?_,fun k => (inside k).down le⟩,?_⟩
  · rw [turn]
    exact (next k).2.1 le
  · rw [turn]
    exact (next k).2.2.1 le
  · obtain ⟨n,_,settled⟩ := Loops.iterateSettles (fun x => emaStep x s) (Between w s) (Nat.dist s)
      (fun x h => ⟨(betweenStep word signal small h).1,(betweenStep word signal small h).2.2.2.2⟩) (inside 0)
    refine ⟨n,(next n).2.2.2.1.mp ?_,settled⟩
    rw [← turn]
    exact settled (n+1) (Nat.le_succ n)

end Constant

theorem emaConvergesDown : ∃ n, Nat.dist (q16 1 / 4) (repeated (q16 1 / 4) n (q16 4)) ≤ 21 ∧
    ∀ k, n ≤ k → repeated (q16 1 / 4) k (q16 4) = repeated (q16 1 / 4) n (q16 4) :=
  (emaConverges (w := q16 4) (s := q16 1 / 4) (by decide) (by decide) (by decide) (by decide)).2.2

end Nekros.NekiWeights
