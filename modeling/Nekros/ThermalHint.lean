import Mathlib.Data.List.Chain
import Mathlib.Data.Nat.Bitwise
import Mathlib.Logic.Function.Basic
import Nekros.Hal

/-! nk_thermal_hint: kernel/syscall.c and drivers/neri/core/neri_ado.c. -/
namespace Nekros.ThermalHint
open Hal Errno
open Function (update)

def neriRaplHeadroomMw : U32 := 3000#32

def newUnits (plimit : U64) (intensity : U32) : U32 :=
  let pl1Mw : U32 := ((plimit &&& 0x7FFF#64) * 125#64).setWidth 32
  let extraMw := neriRaplHeadroomMw * (intensity + 1#32)
  let newPl1 := pl1Mw + extraMw
  newPl1 / 125#32

/- The limit that replaces `plimit`. The new field is masked, not saturated. -/
def newLimit (plimit : U64) (intensity : U32) : U64 :=
  (plimit &&& ~~~0x7FFF#64) ||| (newUnits plimit intensity &&& 0x7FFF#32).setWidth 64 ||| (1#64 <<< 15)

/- The process and the length of the burst are only printed. -/
def neriThermalHint (utbReady : Bool) (h : Msrs) (_pid : U32) (_burstNs : U64) (intensity : U32) : Msrs :=
  if utbReady then
    neriHalWriteMsr h msrPkgPowerLimit (newLimit (neriHalReadMsr h msrPkgPowerLimit) intensity)
  else h

structure Call where
  burstNs : U64
  intensity : U64
  current : Option U32
  neriReady : Bool
  utbReady : Bool

def sysNkThermalHint (h : Msrs) (c : Call) : U64 × Msrs :=
  if 3 < c.intensity then (-BitVec.ofNat 64 einval,h)
  else
    match c.current with
    | none => (0,h)
    | some pid =>
        if c.neriReady then
          (0,neriThermalHint c.utbReady h pid c.burstNs (c.intensity.setWidth 32))
        else (0,h)

def limit (h : Msrs) : U64 := h.msr msrPkgPowerLimit

def pl1 (v : U64) : Nat := (v.setWidth 15).toNat

theorem pl1Lt (v : U64) : pl1 v < 2^15 := (v.setWidth 15).isLt

theorem pl1Mod (v : U64) : pl1 v = v.toNat % 2^15 := BitVec.toNat_setWidth 15 v

theorem fieldMask {w : Nat} (wide : 15 ≤ w) (i : Nat) :
    (BitVec.ofNat w 0x7FFF).getLsbD i = decide (i < 15) := by
  have bits : (0x7FFF).testBit i = decide (i < 15) := Nat.testBit_two_pow_sub_one 15 i
  rw [BitVec.getLsbD_ofNat,bits]
  by_cases low : i < 15
  · have inside : i < w := by omega
    simp [low,inside]
  · simp [low]

theorem newUnitsExact (plimit : U64) {intensity : U32} (weak : intensity.toNat ≤ 3) :
    (newUnits plimit intensity).toNat = pl1 plimit + 24 * (intensity.toNat + 1) := by
  have mask : plimit.toNat &&& 0x7FFF = pl1 plimit := by
    rw [pl1Mod]
    exact Nat.and_two_pow_sub_one_eq_mod plimit.toNat 15
  have low := pl1Lt plimit
  unfold newUnits neriRaplHeadroomMw
  simp only [BitVec.toNat_udiv,BitVec.toNat_add,BitVec.toNat_mul,BitVec.toNat_setWidth,BitVec.toNat_and,
    BitVec.toNat_ofNat,Nat.reducePow,Nat.reduceMod,mask]
  omega

theorem newLimitBit (plimit : U64) (intensity : U32) (i : Nat) :
    (newLimit plimit intensity).getLsbD i =
      if i < 15 then (newUnits plimit intensity).getLsbD i
      else if i = 15 then true else plimit.getLsbD i := by
  have enable : (1#64 <<< 15).getLsbD i = decide (i = 15) := by
    rw [BitVec.getLsbD_shiftLeft,BitVec.getLsbD_one]
    by_cases here : i = 15
    · subst here
      decide
    · simp only [here,decide_false]
      have other : ¬ (15 ≤ i ∧ i - 15 = 0) := by omega
      grind
  unfold newLimit
  rw [BitVec.getLsbD_or,BitVec.getLsbD_or,BitVec.getLsbD_and,BitVec.getLsbD_not,BitVec.getLsbD_setWidth,
    BitVec.getLsbD_and,fieldMask (by decide),fieldMask (by decide),enable]
  by_cases low : i < 15
  · have width : i < 64 := by omega
    have other : i ≠ 15 := by omega
    simp [low,width,other]
  · by_cases here : i = 15
    · simp [here]
    · simp only [low,here,decide_false,if_false]
      by_cases width : i < 64
      · simp [width]
      · rw [BitVec.getLsbD_of_ge plimit i (by omega)]
        simp [width]

theorem newLimitAbove (plimit : U64) (intensity : U32) {i : Nat} (above : 15 < i) :
    (newLimit plimit intensity).getLsbD i = plimit.getLsbD i := by
  rw [newLimitBit,if_neg (by omega),if_neg (by omega)]

theorem newLimitPl1 (plimit : U64) {intensity : U32} (weak : intensity.toNat ≤ 3) :
    pl1 (newLimit plimit intensity) = (pl1 plimit + 24 * (intensity.toNat + 1)) % 2^15 := by
  have field : (newLimit plimit intensity).setWidth 15 = (newUnits plimit intensity).setWidth 15 := by
    apply BitVec.eq_of_getLsbD_eq
    intro i low
    rw [BitVec.getLsbD_setWidth,BitVec.getLsbD_setWidth,newLimitBit,if_pos low]
  rw [← newUnitsExact plimit weak,pl1,field,BitVec.toNat_setWidth]

def Call.Raises (c : Call) : Prop :=
  c.intensity ≤ 3 ∧ c.current.isSome ∧ c.neriReady ∧ c.utbReady

instance (c : Call) : Decidable c.Raises := by unfold Call.Raises; infer_instance

def Call.headroom (c : Call) : Nat := if c.Raises then 24 * (c.intensity.toNat + 1) else 0

theorem callCases (h : Msrs) (c : Call) :
    (c.Raises ∧ (sysNkThermalHint h c).2 =
      neriHalWriteMsr h msrPkgPowerLimit (newLimit (limit h) (c.intensity.setWidth 32))) ∨
    (¬ c.Raises ∧ (sysNkThermalHint h c).2 = h) := by
  obtain ⟨burstNs,intensity,current,neriReady,utbReady⟩ := c
  unfold sysNkThermalHint neriThermalHint Call.Raises
  dsimp only
  by_cases strong : 3 < intensity
  · have refused : ¬ intensity ≤ 3 := BitVec.not_le.mpr strong
    rw [if_pos strong]
    exact .inr ⟨fun raises => refused raises.1,rfl⟩
  · rw [if_neg strong]
    cases current with
    | none => exact .inr ⟨by simp,rfl⟩
    | some pid =>
        cases neriReady with
        | false => exact .inr ⟨by simp,rfl⟩
        | true =>
            cases utbReady with
            | false => exact .inr ⟨by simp,rfl⟩
            | true => exact .inl ⟨⟨BitVec.not_lt.mp strong,rfl,rfl,rfl⟩,rfl⟩

theorem raisesWeak {c : Call} (raises : c.Raises) :
    c.intensity.toNat ≤ 3 ∧ (c.intensity.setWidth 32).toNat = c.intensity.toNat := by
  have weak : c.intensity.toNat ≤ 3 := raises.1
  refine ⟨weak,?_⟩
  rw [BitVec.toNat_setWidth]
  omega

theorem headroomLt (c : Call) : c.headroom < 2^15 := by
  unfold Call.headroom
  split
  · next raises =>
      have weak := (raisesWeak raises).1
      omega
  · decide

def Taken (h : Msrs) : Prop := ∀ v, h.accepts msrPkgPowerLimit v = true

theorem limitWritten {h : Msrs} (taken : Taken h) (v : U64) :
    neriHalWriteMsr h msrPkgPowerLimit v = {h with msr := update h.msr msrPkgPowerLimit v} := by
  have allowed : msrWriteAllowed msrPkgPowerLimit = true := by decide
  have plain : ¬ ((msrPkgPowerLimit = msrFsBase ∨ msrPkgPowerLimit = msrGsBase) ∧
      (v <<< 16).sshiftRight 16 ≠ v) := by
    rintro ⟨fs | gs,_⟩
    · exact absurd fs (by decide)
    · exact absurd gs (by decide)
  rw [neriHalWriteMsr,if_pos allowed,wrmsrSafe,if_neg plain,if_pos (taken v)]

theorem callLimit {h : Msrs} (taken : Taken h) (c : Call) :
    Taken (sysNkThermalHint h c).2 ∧
      pl1 (limit (sysNkThermalHint h c).2) = (pl1 (limit h) + c.headroom) % 2^15 ∧
      ∀ i, 15 < i → (limit (sysNkThermalHint h c).2).getLsbD i = (limit h).getLsbD i := by
  rcases callCases h c with ⟨raises,written⟩ | ⟨idle,same⟩
  · obtain ⟨weak,narrowed⟩ := raisesWeak raises
    have after : limit (sysNkThermalHint h c).2 = newLimit (limit h) (c.intensity.setWidth 32) := by
      rw [written,limitWritten taken]
      exact Function.update_self msrPkgPowerLimit _ h.msr
    refine ⟨?_,?_,fun i above => ?_⟩
    · rw [written,limitWritten taken]
      exact taken
    · rw [after,newLimitPl1 _ (by omega),narrowed,Call.headroom,if_pos raises]
    · rw [after]
      exact newLimitAbove _ _ above
  · rw [same,Call.headroom,if_neg idle]
    exact ⟨taken,(Nat.mod_eq_of_lt (pl1Lt _)).symm,fun _ _ => rfl⟩

def limits (h : Msrs) : List Call → List U64
  | [] => [limit h]
  | c :: rest => limit h :: limits (sysNkThermalHint h c).2 rest

theorem limitsAbove {h : Msrs} (taken : Taken h) (calls : List Call) {v : U64} (met : v ∈ limits h calls)
    {i : Nat} (above : 15 < i) : v.getLsbD i = (limit h).getLsbD i := by
  induction calls generalizing h with
  | nil =>
      rw [List.mem_singleton.mp met]
  | cons c rest ih =>
      obtain ⟨taken',_,kept⟩ := callLimit taken c
      rcases List.mem_cons.mp met with here | later
      · rw [here]
      · rw [ih taken' later,kept i above]

theorem limitsHead (h : Msrs) (calls : List Call) : ∃ rest, limits h calls = limit h :: rest := by
  cases calls with
  | nil => exact ⟨_,rfl⟩
  | cons c rest => exact ⟨_,rfl⟩

theorem stepUp {p x : Nat} (field : p < 2^15) (small : x < 2^15) :
    p ≤ (p + x) % 2^15 ↔ p + x < 2^15 := by
  omega

theorem limitsRise {h : Msrs} (taken : Taken h) (calls : List Call) :
    (limits h calls).IsChain (fun a b => pl1 a ≤ pl1 b) ↔
      pl1 (limit h) + (calls.map Call.headroom).sum < 2^15 := by
  induction calls generalizing h with
  | nil => exact iff_of_true (.singleton _) (pl1Lt _)
  | cons c rest ih =>
      obtain ⟨taken',next,_⟩ := callLimit taken c
      obtain ⟨others,head⟩ := limitsHead (sysNkThermalHint h c).2 rest
      have step := stepUp (pl1Lt (limit h)) (headroomLt c)
      have tail := ih taken'
      rw [limits,head,List.isChain_cons_cons,← head,tail,next,step,List.map_cons,List.sum_cons]
      constructor
      · rintro ⟨fits,total⟩
        rw [Nat.mod_eq_of_lt fits] at total
        omega
      · intro total
        have fits : pl1 (limit h) + c.headroom < 2^15 := by omega
        rw [Nat.mod_eq_of_lt fits]
        exact ⟨fits,by omega⟩

theorem hintsRaise (h : Msrs) (taken : ∀ v, h.accepts msrPkgPowerLimit v = true) (calls : List Call) :
    (∀ v ∈ limits h calls, pl1 v ≤ 2^15 - 1 ∧
      ∀ i, 15 < i → v.getLsbD i = (limit h).getLsbD i) ∧
    ((limits h calls).IsChain (fun a b => pl1 a ≤ pl1 b) ↔
      pl1 (limit h) + (calls.map Call.headroom).sum ≤ 2^15 - 1) := by
  refine ⟨fun v met => ⟨Nat.le_pred_of_lt (pl1Lt v),fun i above => limitsAbove taken calls met above⟩,?_⟩
  rw [limitsRise taken calls]
  exact Nat.lt_iff_le_pred (by decide)

def permissive (plimit : U64) : Msrs := ⟨update (fun _ => 0) msrPkgPowerLimit plimit,fun _ _ => true⟩

def hint (intensity : U64) : Call := ⟨1000000,intensity,some 7,true,true⟩

theorem hintsRaiseTwice :
    (limits (permissive 0x118) [hint 3,hint 0]).IsChain (fun a b => pl1 a ≤ pl1 b) :=
  (hintsRaise (permissive 0x118) (fun _ => rfl) [hint 3,hint 0]).2.mpr (by decide +kernel)

theorem hintLowers :
    pl1 (limit (permissive 0x7FF0)) = 32752 ∧
      (sysNkThermalHint (permissive 0x7FF0) (hint 0)).1 = 0 ∧
      pl1 (limit (sysNkThermalHint (permissive 0x7FF0) (hint 0)).2) = 8 := by
  decide +kernel

end Nekros.ThermalHint
