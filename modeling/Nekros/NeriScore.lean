import Nekros.Boxes
import Nekros.Floats
import Nekros.Hkdf
import Nekros.NeriSec
import Nekros.Utb

/-! The anomaly score of drivers/neri/core/neri_sec.c: twelve floating-point features, a network of
eight hidden units in 8.8 fixed point, and the threat level that shuts the admission gate. How the
compiler rounds an operation and a store is a parameter. Warnings that are printed are left out. -/
namespace Nekros.NeriScore
open Words Boxes Floats
open Utb (Snapshot)

def s16 (x : Int) : Int := x.bmod (2^16)

def s32 (x : Int) : Int := x.bmod (2^32)

def w1 : List (List Int) := [
  [82,-45,67,23,-88,54,-12,99,-34,15,76,-55],
  [-23,91,-44,67,38,-71,83,-19,45,-88,22,61],
  [55,-33,89,-67,12,44,-78,33,91,-22,48,-79],
  [-67,44,-28,81,-9,73,-41,58,-83,36,-5,92],
  [34,78,-56,-8,95,-42,17,-9,63,-77,29,41],
  [-88,19,72,-39,56,-24,88,-63,11,47,-91,25],
  [12,-66,38,91,-47,82,-29,14,-58,73,-8,55],
  [71,-8,-81,27,64,-93,39,76,-23,-4,85,-47]]

def b1 : List Int := [12,-8,25,-16,9,-31,14,-7]

def w2 : List Int := [134,-98,77,-113,88,-62,144,-105]

def b2 : Int := 18

def tanhPieces (x : Int) : Int :=
  if x < 128 then x else if x < 256 then 128 + (x - 128) / 2 else 192 + (x - 256) / 4

def tanhQ8 (x : Int) : Int :=
  if 384 < x then 255
  else if x < -384 then -255
  else if x < 0 then -tanhPieces (-x)
  else tanhPieces x

/- `x / 2` of C is cut towards zero. -/
def sigmoidQ8 (x : Int) : Int :=
  if 512 < x then 255
  else if x < -512 then 0
  else
    let v := 128 + x.tdiv 2
    let v := if v < 0 then 0 else v
    if 255 < v then 255 else v

def accumulate (bias : Int) (weights xs : List Int) : Int :=
  (weights.zip xs).foldl (fun acc p => s32 (acc + s32 (p.1 * p.2))) (s32 (bias * 256))

/- `acc >> 8` is the quotient rounded down. -/
def hiddenUnits (xs : List Int) : List Int :=
  List.zipWith (fun row bias => s16 (tanhQ8 (accumulate bias row xs / 256))) w1 b1

def forward (xs : List Int) : Int := sigmoidQ8 (accumulate b2 w2 (hiddenUnits xs) / 256)

/- The rounding of each kind of operation, and of a store to a `float`. -/
structure Fpu where
  conv : Rounding
  div : Rounding
  add : Rounding
  mul : Rounding
  store : Rounding

structure FeatureAcc where
  readOps : Nat
  writeOps : Nat
  uniquePids : Nat
  totalBytes : Nat
  failedDecrypts : Nat
  keyUnwraps : Nat
  entropyDeltaAcc : Nat
  newBinaries : Nat
  privEscalations : Nat
  windowTicks : Nat
  lastUnlockTick : Nat
  deriving DecidableEq, Repr

def FeatureAcc.zeroed : FeatureAcc := ⟨0,0,0,0,0,0,0,0,0,0,0⟩

section Features
variable (fpu : Fpu)

def ratio (n : Nat) (d : ℚ≥0) : ℚ≥0 := fpu.div.round (fpu.conv.round n / d)

def capped (n : Nat) (d : ℚ≥0) : ℚ≥0 := min (ratio fpu n d) 1

def averaged (f : ℚ≥0) (n : Nat) (d : ℚ≥0) : ℚ≥0 :=
  fpu.mul.round (fpu.add.round (f + ratio fpu n d) * 0.5)

def buildFeatures (f : FeatureAcc) (snap : Option Snapshot) : List ℚ≥0 :=
  let ticks := max f.windowTicks 1
  let reads := fpu.store.round (ratio fpu (f.readOps / ticks) 1000)
  let bytes := fpu.store.round (capped fpu (f.totalBytes / ticks) 1048576)
  let written :=
    if 0 < f.writeOps then fpu.div.round (fpu.conv.round f.writeOps / fpu.conv.round (wrap (f.readOps + 1)))
    else 0
  let unlocked :=
    if 0 < f.lastUnlockTick then capped fpu (sub64 f.windowTicks f.lastUnlockTick) 10000 else 1
  [match snap with
    | some s => fpu.store.round (averaged fpu reads s.pkgPowerMw 100000)
    | none => reads,
   fpu.store.round 0,
   fpu.store.round (capped fpu f.uniquePids 256),
   match snap with
    | some s => fpu.store.round (averaged fpu bytes s.dramPowerMw 50000)
    | none => bytes,
   fpu.store.round written,
   fpu.store.round (capped fpu f.failedDecrypts 100),
   fpu.store.round (capped fpu f.keyUnwraps 50),
   fpu.store.round (capped fpu (f.entropyDeltaAcc / ticks) 1000000),
   fpu.store.round (capped fpu f.newBinaries 20),
   fpu.store.round 0,
   fpu.store.round unlocked,
   fpu.store.round (capped fpu f.privEscalations 10)]

/- `(s32)(f * 256.0f)` and the clamp; a value outside of `s32` has no conversion. -/
def quantise (f : ℚ≥0) : Option Int :=
  let scaled := ⌊fpu.mul.round (f * 256)⌋₊
  if scaled < 2^31 then
    let q : Int := scaled
    let q := if q < 0 then 0 else q
    let q := if 255 < q then 255 else q
    some (s16 q)
  else none

def mlpAnomaly (features : List ℚ≥0) : Option Int := (features.mapM (quantise fpu)).map forward

end Features

inductive Level where
  | normal
  | medium
  | high
  | critical
  deriving DecidableEq, Repr

def Level.toNat : Level → Nat
  | .normal => 0
  | .medium => 1
  | .high => 2
  | .critical => 3

structure Anomaly where
  scoreByte : Int
  level : Level
  blockAdmits : Bool
  scoreEpoch : Nat
  deriving DecidableEq, Repr

def Anomaly.zeroed : Anomaly := ⟨0,.normal,false,0⟩

structure State where
  nsm : NeriSec.Nsm
  anomaly : Anomaly
  feat : FeatureAcc

def levelOf (score : Int) : Level :=
  if score < 102 then .normal
  else if score < 179 then .medium
  else if score < 230 then .high
  else .critical

theorem levelRange {score : Int} (low : 166 ≤ score) (high : score ≤ 225) :
    levelOf score = .medium ∨ levelOf score = .high := by
  rw [levelOf,if_neg (by omega)]
  split
  · exact .inl rfl
  · rw [if_pos (by omega)]
    exact .inr rfl

def neriSecTick (fpu : Fpu) (s : State) (poolEpoch : Nat) (snap : Option Snapshot) : Option State :=
  if s.nsm.ready then do
    let score ← mlpAnomaly fpu (buildFeatures fpu s.feat snap)
    let level := levelOf score
    some {s with
      anomaly := ⟨score,level,decide (Level.critical.toNat ≤ level.toNat),poolEpoch⟩
      feat := {s.feat with windowTicks := wrap (s.feat.windowTicks + 1)}}
  else some s

def neriSecRescore (fpu : Fpu) (s : State) (poolEpoch : Nat) (snapshot : Snapshot) : Option State :=
  neriSecTick fpu s poolEpoch (some snapshot)

def neriSecAdmitAllowed (s : State) : Bool := if !s.nsm.ready then true else !s.anomaly.blockAdmits

def neriSecGetAnomaly (s : State) : Anomaly := s.anomaly

def nsmInfo : List Bytes.Byte :=
  [0x6e,0x65,0x6b,0x72,0x6f,0x73,0x2d,0x6e,0x65,0x72,0x69,0x2d,0x6e,0x73,0x6d,0x2d,0x76,0x31]

def neriSecInit (machineFp : Vector Bytes.Byte 32) : State :=
  let okm := Hkdf.hkdfSha256 machineFp.toList none nsmInfo (List.replicate 32 0) 32
  ⟨⟨Vector.ofFn fun i => okm.getD i.val 0,true⟩,Anomaly.zeroed,FeatureAcc.zeroed⟩

def affine (bias : Int) (weights xs : List Int) : Int := bias * 256 + dot weights xs

def plainHidden (xs : List Int) : List Int :=
  List.zipWith (fun row bias => tanhQ8 (affine bias row xs / 256)) w1 b1

def plainForward (xs : List Int) : Int := sigmoidQ8 (affine b2 w2 (plainHidden xs) / 256)

theorem s32Of {x : Int} (small : |x| < 2^31) : s32 x = x := by
  obtain ⟨low,high⟩ := abs_lt.mp small
  exact Int.bmod_eq_of_le (by norm_num; omega) (by norm_num; omega)

theorem weightsNonneg {top : Int} (nonneg : 0 ≤ top) (weights : List Int) : 0 ≤ top * (weights.map abs).sum := by
  refine mul_nonneg nonneg (List.sum_nonneg fun a mem => ?_)
  obtain ⟨v,_,rfl⟩ := List.mem_map.mp mem
  exact abs_nonneg v

theorem sumExact {top : Int} (weights xs : List Int) {acc : Int} (small : ∀ x ∈ xs, |x| ≤ top) (nonneg : 0 ≤ top)
    (fits : |acc| + top * (weights.map abs).sum < 2^31) :
    (weights.zip xs).foldl (fun acc p => s32 (acc + s32 (p.1 * p.2))) acc = acc + dot weights xs := by
  induction weights generalizing xs acc with
  | nil => exact (add_zero acc).symm
  | cons w ws ih =>
      cases xs with
      | nil => exact (add_zero acc).symm
      | cons x xs =>
          have rest := weightsNonneg nonneg ws
          have term : |w * x| ≤ top * |w| := by
            rw [abs_mul,mul_comm]
            exact mul_le_mul_of_nonneg_right (small x (List.mem_cons_self ..)) (abs_nonneg w)
          rw [List.map_cons,List.sum_cons,mul_add] at fits
          have one := abs_nonneg acc
          have added : |acc + w * x| ≤ |acc| + |w * x| := abs_add_le acc (w * x)
          have product : s32 (w * x) = w * x := s32Of (by omega)
          have total : s32 (acc + w * x) = acc + w * x := s32Of (by omega)
          rw [List.zip_cons_cons,List.foldl_cons,product,total,
            ih xs (fun y mem => small y (List.mem_cons_of_mem _ mem)) (by omega)]
          exact add_assoc acc (w * x) (dot ws xs)

theorem accumulateExact {bias top : Int} {weights xs : List Int} (small : ∀ x ∈ xs, |x| ≤ top) (nonneg : 0 ≤ top)
    (fits : |bias * 256| + top * (weights.map abs).sum < 2^31) :
    accumulate bias weights xs = affine bias weights xs := by
  have rest := weightsNonneg nonneg weights
  have start : s32 (bias * 256) = bias * 256 := s32Of (by omega)
  rw [accumulate,start,sumExact weights xs small nonneg fits,affine]

theorem piecesSmall {x : Int} (low : 0 ≤ x) (high : x ≤ 384) : 0 ≤ tanhPieces x ∧ tanhPieces x ≤ 255 := by
  unfold tanhPieces
  split
  · omega
  · split <;> omega

theorem tanhSmall (x : Int) : |tanhQ8 x| ≤ 255 := by
  have up := @piecesSmall x
  have down := @piecesSmall (-x)
  rw [abs_le]
  unfold tanhQ8
  split_ifs <;> omega

theorem s16Of {x : Int} (small : |x| ≤ 255) : s16 x = x := by
  obtain ⟨low,high⟩ := abs_le.mp small
  exact Int.bmod_eq_of_le (by norm_num; omega) (by norm_num; omega)

theorem rowsFit : ∀ p ∈ w1.zip b1, |p.2 * 256| + 255 * (p.1.map abs).sum < 2^31 := by decide

theorem hiddenExact {xs : List Int} (small : ∀ x ∈ xs, |x| ≤ 255) : hiddenUnits xs = plainHidden xs := by
  rw [hiddenUnits,plainHidden,← List.map_uncurry_zip_eq_zipWith,← List.map_uncurry_zip_eq_zipWith]
  refine List.map_congr_left fun p mem => ?_
  have row := accumulateExact small (by decide) (rowsFit p mem)
  simp only [Function.uncurry,row,s16Of (tanhSmall _)]

theorem hiddenSmall (xs : List Int) : ∀ h ∈ plainHidden xs, |h| ≤ 255 := by
  intro h mem
  rw [plainHidden,← List.map_uncurry_zip_eq_zipWith] at mem
  obtain ⟨p,_,rfl⟩ := List.mem_map.mp mem
  exact tanhSmall _

theorem forwardPlain {xs : List Int} (small : ∀ x ∈ xs, |x| ≤ 255) : forward xs = plainForward xs := by
  rw [forward,hiddenExact small,accumulateExact (hiddenSmall xs) (by decide) (by decide),plainForward]

theorem piecesMono {x y : Int} (le : x ≤ y) : tanhPieces x ≤ tanhPieces y := by
  unfold tanhPieces
  split_ifs <;> omega

theorem tanhMono {x y : Int} (le : x ≤ y) : tanhQ8 x ≤ tanhQ8 y := by
  have up := piecesMono le
  have down := piecesMono (neg_le_neg le)
  have smallX := @piecesSmall x
  have smallX' := @piecesSmall (-x)
  have smallY := @piecesSmall y
  have smallY' := @piecesSmall (-y)
  unfold tanhQ8
  split_ifs <;> omega

theorem sigmoidMono {x y : Int} (le : x ≤ y) : sigmoidQ8 x ≤ sigmoidQ8 y := by
  have half : x.tdiv 2 ≤ y.tdiv 2 := Int.tdiv_le_tdiv (by decide) le
  unfold sigmoidQ8
  dsimp only
  split_ifs <;> omega

def affineBounds (bias : Int) (weights : List Int) (box : Box) : Interval :=
  plus ⟨bias * 256,bias * 256⟩ (dotBounds weights box)

def hiddenBounds (box : Box) : Box :=
  List.zipWith (fun row bias => image (fun a => tanhQ8 (a / 256)) (affineBounds bias row box)) w1 b1

def forwardBounds (box : Box) : Interval :=
  image (fun a => sigmoidQ8 (a / 256)) (affineBounds b2 w2 (hiddenBounds box))

theorem affineHas {box : Box} {xs : List Int} (h : Inside box xs) (bias : Int) (weights : List Int) :
    Has (affineBounds bias weights box) (affine bias weights xs) :=
  plusHas ⟨le_refl _,le_refl _⟩ (dotHas h weights)

theorem shiftedMono {f : Int → Int} (mono : ∀ {x y}, x ≤ y → f x ≤ f y) {a b : Int} (le : a ≤ b) :
    f (a / 256) ≤ f (b / 256) :=
  mono (Int.ediv_le_ediv (by decide) le)

theorem hiddenInside {box : Box} {xs : List Int} (h : Inside box xs) : Inside (hiddenBounds box) (plainHidden xs) := by
  unfold hiddenBounds plainHidden
  generalize w1 = rows
  generalize b1 = biases
  induction rows generalizing biases with
  | nil => exact .nil
  | cons row rows ih =>
      cases biases with
      | nil => exact .nil
      | cons bias biases => exact .cons (imageHas (shiftedMono tanhMono) (affineHas h bias row)) (ih biases)

theorem forwardHas {box : Box} {xs : List Int} (h : Inside box xs) : Has (forwardBounds box) (plainForward xs) :=
  imageHas (shiftedMono sigmoidMono) (affineHas (hiddenInside h) b2 w2)

/- What reaches the network when the accumulators are zero: the two power readings, and the feature
for a policy that was never unlocked. -/
def powerBox : Box :=
  [⟨0,255⟩,⟨0,0⟩,⟨0,0⟩,⟨0,255⟩,⟨0,0⟩,⟨0,0⟩,⟨0,0⟩,⟨0,0⟩,⟨0,0⟩,⟨0,0⟩,⟨255,255⟩,⟨0,0⟩]

def within (low high : Int) (box : Box) : Bool :=
  decide (low ≤ (forwardBounds box).lo) && decide ((forwardBounds box).hi ≤ high)

theorem withinSound {low high : Int} (box : Box) (xs : List Int) (ok : within low high box = true)
    (h : Inside box xs) : low ≤ plainForward xs ∧ plainForward xs ≤ high := by
  rw [within,Bool.and_eq_true,decide_eq_true_eq,decide_eq_true_eq] at ok
  exact ⟨ok.1.trans (forwardHas h).1,(forwardHas h).2.trans ok.2⟩

theorem powerCovered : covered (within 166 225) 16 powerBox = true := by decide +kernel

theorem powerScore {xs : List Int} (h : Inside powerBox xs) : 166 ≤ plainForward xs ∧ plainForward xs ≤ 225 :=
  coveredSound withinSound powerCovered h

section Quantised
variable (fpu : Fpu)

theorem ratioZero (d : ℚ≥0) : ratio fpu 0 d = 0 := by
  rw [ratio,Nat.cast_zero,fpu.conv.zero,zero_div,fpu.div.zero]

theorem cappedZero (d : ℚ≥0) : capped fpu 0 d = 0 := by
  rw [capped,ratioZero]
  exact min_eq_left zero_le

theorem readingLe {n : Nat} {d : ℚ≥0} (small : (n : ℚ≥0) ≤ 2^(22 : ℤ)) (one : 1 ≤ d) :
    fpu.store.round (averaged fpu 0 n d) ≤ 2^(22 : ℤ) := by
  have whole : ratio fpu n d ≤ 2^(22 : ℤ) :=
    roundLe _ (by decide) ((div_le_self zero_le one).trans (roundLe _ (by decide) small))
  have half : (2 : ℚ≥0)^(22 : ℤ) * 0.5 ≤ 2^(22 : ℤ) := by norm_num
  rw [averaged,zero_add]
  refine roundLe _ (by decide) (roundLe _ (by decide) (le_trans ?_ half))
  exact mul_le_mul_of_nonneg_right (roundLe _ (by decide) whole) zero_le

theorem quantiseByte {f : ℚ≥0} (small : f ≤ 2^(22 : ℤ)) : ∃ q, quantise fpu f = some q ∧ 0 ≤ q ∧ q ≤ 255 := by
  have scaled : fpu.mul.round (f * 256) ≤ 2^(30 : ℤ) := by
    refine roundLe _ (by decide) ((mul_le_mul_of_nonneg_right small zero_le).trans ?_)
    norm_num
  have fits : ⌊fpu.mul.round (f * 256)⌋₊ < 2^31 :=
    (Nat.floor_le_of_le (n := 2^30) (by exact_mod_cast scaled)).trans_lt (by decide)
  rw [quantise]
  dsimp only
  rw [if_pos fits]
  refine ⟨_,rfl,?_⟩
  generalize (⌊fpu.mul.round (f * 256)⌋₊ : Nat) = n
  rw [s16Of (abs_le.mpr (by split_ifs <;> omega))]
  split_ifs <;> omega

theorem quantiseZero : quantise fpu 0 = some 0 := by
  rw [quantise,zero_mul,fpu.mul.zero,Nat.floor_zero]
  rfl

theorem quantiseOne : quantise fpu 1 = some 255 := by
  have power : (1 : ℚ≥0) * 256 = 2^(8 : ℤ) := by norm_num
  have whole : (2 : ℚ≥0)^(8 : ℤ) = (256 : Nat) := by norm_num
  rw [quantise,power,fpu.mul.power 8 (by decide),whole,Nat.floor_natCast]
  rfl

theorem quantiseAll {features : List ℚ≥0} (bounded : ∀ f ∈ features, f ≤ 2^(22 : ℤ)) :
    ∃ xs, features.mapM (quantise fpu) = some xs ∧ ∀ x ∈ xs, 0 ≤ x ∧ x ≤ 255 := by
  induction features with
  | nil => exact ⟨[],rfl,fun x mem => absurd mem List.not_mem_nil⟩
  | cons f rest ih =>
      obtain ⟨q,got,byte⟩ := quantiseByte fpu (bounded f List.mem_cons_self)
      obtain ⟨xs,gotRest,bytes⟩ := ih fun f mem => bounded f (List.mem_cons_of_mem _ mem)
      refine ⟨q :: xs,by simp [got,gotRest],fun x mem => ?_⟩
      rcases List.mem_cons.mp mem with rfl | later
      · exact byte
      · exact bytes x later

theorem sigmoidByte (x : Int) : 0 ≤ sigmoidQ8 x ∧ sigmoidQ8 x ≤ 255 := by
  unfold sigmoidQ8
  dsimp only
  split_ifs <;> omega

theorem scoreExact {features : List ℚ≥0} (bounded : ∀ f ∈ features, f ≤ 2^(22 : ℤ)) :
    ∃ xs, features.mapM (quantise fpu) = some xs ∧ (∀ x ∈ xs, 0 ≤ x ∧ x ≤ 255) ∧
      mlpAnomaly fpu features = some (plainForward xs) ∧ 0 ≤ plainForward xs ∧ plainForward xs ≤ 255 := by
  obtain ⟨xs,got,bytes⟩ := quantiseAll fpu bounded
  have small : ∀ x ∈ xs, |x| ≤ 255 := by
    intro x mem
    have byte := bytes x mem
    rw [abs_le]
    omega
  refine ⟨xs,got,bytes,?_,sigmoidByte _⟩
  rw [mlpAnomaly,got,Option.map_some,forwardPlain small]

end Quantised

def exactFpu : Fpu := ⟨unrounded,unrounded,unrounded,unrounded,unrounded⟩

def bootFeatures : List ℚ≥0 := buildFeatures exactFpu FeatureAcc.zeroed none

theorem scoreExactBoot : ∃ xs, bootFeatures.mapM (quantise exactFpu) = some xs ∧
    mlpAnomaly exactFpu bootFeatures = some (plainForward xs) := by
  obtain ⟨xs,got,_,score,_⟩ := scoreExact exactFpu (by decide +kernel : ∀ f ∈ bootFeatures, f ≤ 2^(22 : ℤ))
  exact ⟨xs,got,score⟩

def Quiet (f : FeatureAcc) : Prop := f = {FeatureAcc.zeroed with windowTicks := f.windowTicks}

def Sane (s : Snapshot) : Prop := s.pkgPowerMw ≤ Utb.utbMaxPkgPowerMw ∧ s.dramPowerMw ≤ Utb.utbMaxDramPowerMw

theorem quietFeatures (fpu : Fpu) {f : FeatureAcc} (quiet : Quiet f) (s : Snapshot) :
    buildFeatures fpu f (some s) =
      [fpu.store.round (averaged fpu 0 s.pkgPowerMw 100000),0,0,fpu.store.round (averaged fpu 0 s.dramPowerMw 50000),
        0,0,0,0,0,0,1,0] := by
  have one : fpu.store.round 1 = 1 := by simpa using fpu.store.power 0 (by decide)
  rw [quiet]
  simp [buildFeatures,FeatureAcc.zeroed,ratioZero,cappedZero,fpu.store.zero,one]

theorem saneFeatures (fpu : Fpu) {s : Snapshot} (sane : Sane s) :
    fpu.store.round (averaged fpu 0 s.pkgPowerMw 100000) ≤ 2^(22 : ℤ) ∧
      fpu.store.round (averaged fpu 0 s.dramPowerMw 50000) ≤ 2^(22 : ℤ) := by
  constructor
  · refine readingLe fpu ((Nat.cast_le.mpr sane.1).trans ?_) (by norm_num)
    norm_num [Utb.utbMaxPkgPowerMw]
  · refine readingLe fpu ((Nat.cast_le.mpr sane.2).trans ?_) (by norm_num)
    norm_num [Utb.utbMaxDramPowerMw]

theorem quietScore (fpu : Fpu) {f : FeatureAcc} (quiet : Quiet f) {s : Snapshot} (sane : Sane s) :
    ∃ score, mlpAnomaly fpu (buildFeatures fpu f (some s)) = some score ∧ 166 ≤ score ∧ score ≤ 225 := by
  obtain ⟨smallPkg,smallDram⟩ := saneFeatures fpu sane
  obtain ⟨pkg,gotPkg,pkgLow,pkgHigh⟩ := quantiseByte fpu smallPkg
  obtain ⟨dram,gotDram,dramLow,dramHigh⟩ := quantiseByte fpu smallDram
  have inputs : (buildFeatures fpu f (some s)).mapM (quantise fpu) =
      some [pkg,0,0,dram,0,0,0,0,0,0,255,0] := by
    rw [quietFeatures fpu quiet]
    simp [gotPkg,gotDram,quantiseZero,quantiseOne]
  have inside : Inside powerBox [pkg,0,0,dram,0,0,0,0,0,0,255,0] := by
    have zero : Has ⟨0,0⟩ 0 := ⟨le_refl 0,le_refl 0⟩
    exact .cons ⟨pkgLow,pkgHigh⟩ (.cons zero (.cons zero (.cons ⟨dramLow,dramHigh⟩ (.cons zero (.cons zero
      (.cons zero (.cons zero (.cons zero (.cons zero (.cons ⟨le_refl 255,le_refl 255⟩ (.cons zero .nil)))))))))))
  have bytes : ∀ x ∈ [pkg,0,0,dram,0,0,0,0,0,0,255,0], |x| ≤ 255 := by
    intro x mem
    rw [abs_le]
    simp only [List.mem_cons,List.not_mem_nil,or_false] at mem
    omega
  refine ⟨forward [pkg,0,0,dram,0,0,0,0,0,0,255,0],?_,?_⟩
  · rw [mlpAnomaly,inputs,Option.map_some]
  · rw [forwardPlain bytes]
    exact powerScore inside

end Nekros.NeriScore
