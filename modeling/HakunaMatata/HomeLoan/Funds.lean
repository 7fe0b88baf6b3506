import HakunaMatata.HomeLoan.Schedules

/-!
# The balance of the fund

A record is meaningful if no balance in it is negative, and if a monthly one changes the fund by the
deposit, by what is paid from elsewhere and by the payments (`Meaningful`). Two things break this.
A lump sum may be larger than the debt that is left, which includes every lump sum from the last
month of the commercial loan on. And a month in which the payments exceed the deposit by no more
than the precision takes the difference from the fund and from elsewhere (`Thin`). Both are
conditions on the loan by the closed forms, and `calRepay_meaningful_iff` says that nothing else
breaks it.
-/

namespace HakunaMatata.HomeLoan

open Base

/-- A record that follows a balance of the fund. -/
structure Meaningful (loan : Loan) (fund : ℚ) (record : RepayRecord) : Prop where
  fund_nonneg : 0 ≤ record.socialFundRemain
  social_nonneg : 0 ≤ record.socialDebtRemain
  commercial_nonneg : 0 ≤ record.commercialDebtRemain
  conserved : record.isOnceRepay = false →
    record.socialFundRemain = fund + loan.socialFundMonthly + max record.extraPay 0 -
      (record.repaySocialBal + record.repaySocialInterest + record.repayCommercialBal +
        record.repayCommercialInterest)

/-- The records that follow a balance of the fund. -/
def AllMeaningful (loan : Loan) : ℚ → List RepayRecord → Prop
  | _, [] => True
  | fund, record :: records =>
    Meaningful loan fund record ∧ AllMeaningful loan record.socialFundRemain records

/-- The balance of the fund after the records. -/
def fundAfter (fund : ℚ) : List RepayRecord → ℚ
  | [] => fund
  | record :: records => fundAfter record.socialFundRemain records

theorem fundAfter_concat (fund : ℚ) (records : List RepayRecord) (record : RepayRecord) :
    fundAfter fund (records ++ [record]) = record.socialFundRemain := by
  induction records generalizing fund with
  | nil => rfl
  | cons first records ih => exact ih _

theorem allMeaningful_concat (loan : Loan) (fund : ℚ) (records : List RepayRecord)
    (record : RepayRecord) :
    AllMeaningful loan fund (records ++ [record]) ↔
      AllMeaningful loan fund records ∧ Meaningful loan (fundAfter fund records) record := by
  induction records generalizing fund with
  | nil =>
    simp only [List.nil_append, AllMeaningful, fundAfter]
    exact and_comm
  | cons first records ih =>
    rw [List.cons_append, AllMeaningful, ih, AllMeaningful, fundAfter, and_assoc]

section Month

variable (method : Method) (loan : Loan)

/-- What the payments of the month exceed the deposit by. -/
def netting (s : State) : ℚ :=
  let social := payLoan method loan.socialInterestRate s.socialPerPeriod s.socialDebtRemain
  let commercial :=
    payLoan method loan.commercialInterestRate s.commercialPerPeriod s.commercialDebtRemain
  social.bal + social.interest + commercial.bal + commercial.interest - loan.socialFundMonthly

/-- An amount that is positive and no more than the precision. -/
def Thin (amount : ℚ) : Prop :=
  0 < amount ∧ amount ≤ precision

instance (amount : ℚ) : Decidable (Thin amount) :=
  inferInstanceAs (Decidable (_ ∧ _))

variable {method}

/-- What the payments of month `n + 1` exceed the deposit by, by the closed forms. -/
def Law.excess (law : Law method) (n : ℕ) : ℚ :=
  law.due loan.socialInterestRate (loan.socialTrack n) +
    law.due loan.commercialInterestRate (loan.commercialTrack law n) - loan.socialFundMonthly

/-- The fund pays or receives what is not paid from elsewhere, unless the difference is thin. -/
theorem settle_conserves_iff (netting fund : ℚ) :
    (settle netting fund).fund = fund + max (settle netting fund).netting 0 - netting ↔
      ¬ Thin netting := by
  have hprecision : (0 : ℚ) < precision := by norm_num [precision]
  unfold settle
  split_ifs with hnetting hfund hcovered
  · refine iff_of_true ?_ (fun h => absurd h.2 (not_le.mpr hnetting))
    show fund - netting = fund + max 0 0 - netting
    rw [max_self, add_zero]
  · refine iff_of_true ?_ (fun h => absurd h.2 (not_le.mpr hnetting))
    show (0 : ℚ) = fund + max (netting - fund) 0 - netting
    rw [max_eq_left (by linarith)]
    ring
  · refine iff_of_true ?_ (fun h => absurd h.2 (not_le.mpr hnetting))
    show fund = fund + max netting 0 - netting
    rw [max_eq_left (by linarith)]
    ring
  · show fund + -netting = fund + max netting 0 - netting ↔ _
    rcases le_or_gt netting 0 with hle | hpos
    · rw [max_eq_right hle]
      refine iff_of_true (by ring) (fun h => absurd h.1 (not_lt.mpr hle))
    · rw [max_eq_left hpos.le]
      refine iff_of_false (fun h => ?_) (not_not.mpr ⟨hpos, not_lt.mp hnetting⟩)
      linarith

/-- The fund is not overdrawn, unless the difference is thin. -/
theorem settle_fund_nonneg {netting fund : ℚ} (hfund : 0 ≤ fund)
    (h : ¬ Thin netting) : 0 ≤ (settle netting fund).fund := by
  unfold settle
  split_ifs with hnetting hlarge hcovered
  · show 0 ≤ fund - netting
    linarith
  · exact le_refl _
  · exact hfund
  · have hle : netting ≤ 0 := by
      by_contra hpos
      exact h ⟨not_le.mp hpos, not_lt.mp hnetting⟩
    show 0 ≤ fund + -netting
    linarith

end Month

section Loop

variable {method : Method} {law : Law method} {loan : Loan} {s s' : State} {n : ℕ} {t : Track}

theorem Sound.netting_eq (h : Sound law loan n (loan.commercialTrack law n) s)
    (hloan : loan.Proper) : netting method loan s = law.excess loan n := by
  obtain ⟨_, _, hsocial⟩ := h.social.payLoan hloan.socialRate
  obtain ⟨_, _, hcommercial⟩ := h.commercial.payLoan hloan.commercialRate
  simp only [netting, Law.excess, ← hsocial, ← hcommercial]
  ring

/-- The variables of the loop after `n` months with meaningful records. -/
structure Funded (law : Law method) (loan : Loan) (n : ℕ) (t : Track) (s : State) : Prop where
  sound : Sound law loan n t s
  fund_eq : fundAfter loan.socialFundBal s.records = s.socialFundRemain
  fund_nonneg : 0 ≤ s.socialFundRemain
  records : AllMeaningful loan loan.socialFundBal s.records

/-- The records of a month are meaningful exactly if the difference is not thin. -/
theorem Funded.payMonth_iff (h : Funded law loan n t s) (hloan : loan.Proper) :
    AllMeaningful loan loan.socialFundBal (payMonth method loan n s).records ↔
      ¬ Thin (netting method loan s) := by
  have hsound := h.sound.payMonth hloan
  have hconserves := settle_conserves_iff (netting method loan s) s.socialFundRemain
  simp only [payMonth]
  rw [allMeaningful_concat, and_iff_right h.records, h.fund_eq]
  constructor
  · intro hrecord
    refine hconserves.mp ?_
    have hfund := hrecord.conserved rfl
    simp only [netting] at hfund ⊢
    linarith
  · intro hthin
    refine ⟨settle_fund_nonneg h.fund_nonneg hthin, hsound.social.remain_nonneg,
      hsound.commercial.remain_nonneg, ?_⟩
    intro _
    have hfund := hconserves.mpr hthin
    simp only [netting] at hfund ⊢
    linarith

theorem Funded.payMonth (h : Funded law loan n t s) (hloan : loan.Proper)
    (hthin : ¬ Thin (netting method loan s)) :
    Funded law loan (n + 1) t.next (payMonth method loan n s) where
  sound := h.sound.payMonth hloan
  fund_eq := fundAfter_concat _ _ _
  fund_nonneg := settle_fund_nonneg h.fund_nonneg hthin
  records := (h.payMonth_iff hloan).mpr hthin

/-- The lump sum is not larger than the debt that is left. -/
def Covered (loan : Loan) (n : ℕ) (s : State) : Prop :=
  loan.OnceAfter n → loan.onceRepay ≤ s.commercialDebtRemain

/-- The debt that is left when the lump sum is made is that of the closed form, or both are too
small. -/
theorem Sound.covered_iff (h : Sound law loan (n + 1) (loan.commercialTrack law n).next s) :
    Covered loan n s ↔ (loan.OnceAfter n →
      loan.onceRepay ≤ law.balance loan.commercialDebt loan.commercialInterestRate
        loan.commercialMonths (n + 1)) := by
  refine forall_congr' fun hlump => ⟨fun hfits => ?_, fun hfits => ?_⟩
  · exact h.owed_of_once hlump hfits ▸ hfits
  · have hpos : 1 < loan.onceRepay := hlump.1
    have hprecision := precision_lt_one
    have hfollows := h.commercial.follows
    rw [commercialTrack_before hlump] at hfollows
    rcases hfollows with ⟨heq, _⟩ | ⟨_, hsmall⟩
    · exact heq ▸ hfits
    · have hpaid : law.balance loan.commercialDebt loan.commercialInterestRate
        loan.commercialMonths (n + 1) < precision := hsmall
      linarith

/-- A lump sum that is covered is made before the end of the commercial loan. -/
theorem Sound.month_lt (h : Sound law loan (n + 1) (loan.commercialTrack law n).next s)
    (hloan : loan.Proper) (hcovered : Covered loan n s) (hlump : loan.OnceAfter n) :
    n + 1 < loan.commercialMonths := by
  by_contra hlate
  have hcommercial := h.commercial
  rw [commercialTrack_before hlump] at hcommercial
  have hpaid := hcommercial.paid hloan.commercialRate (Nat.not_lt.mp hlate)
  have hfits := hcovered hlump
  have hlarge : 1 < loan.onceRepay := hlump.1
  have hprecision := precision_lt_one
  linarith

/-- What the rest of the loop body does: the fund is left alone, and a lump sum has a record. -/
theorem payOnce_cases (h : payOnce method loan n s = .ok s') :
    s'.socialFundRemain = s.socialFundRemain ∧
      (¬ loan.OnceAfter n ∧ s'.records = s.records ∨
        loan.OnceAfter n ∧ ∃ record, s'.records = s.records ++ [record] ∧
          record.isOnceRepay = true ∧ record.socialFundRemain = s.socialFundRemain ∧
          record.socialDebtRemain = s.socialDebtRemain ∧
          record.commercialDebtRemain = s.commercialDebtRemain - loan.onceRepay) := by
  unfold payOnce at h
  split at h
  · rename_i hlump
    obtain ⟨perPeriod, _, h⟩ := bind_eq_ok.mp h
    cases h
    exact ⟨rfl, Or.inr ⟨hlump, _, rfl, rfl, rfl, rfl, rfl⟩⟩
  · rename_i hnone
    cases h
    exact ⟨rfl, Or.inl ⟨hnone, rfl⟩⟩

/-- The records after a lump sum are meaningful exactly if those before are, and it is covered. -/
theorem Sound.payOnce_meaningful_iff (h : Sound law loan (n + 1) t s)
    (hfund : 0 ≤ s.socialFundRemain) (hs' : HomeLoan.payOnce method loan n s = .ok s') :
    AllMeaningful loan loan.socialFundBal s'.records ↔
      AllMeaningful loan loan.socialFundBal s.records ∧ Covered loan n s := by
  obtain ⟨_, ⟨hnone, hrecords⟩ | ⟨hlump, record, hrecords, honce, hfund', hsocial, hcommercial⟩⟩ :=
    payOnce_cases hs'
  · rw [hrecords, iff_self_and]
    exact fun _ hlump => absurd hlump hnone
  · rw [hrecords, allMeaningful_concat]
    refine and_congr_right fun _ => ⟨fun hrecord _ => ?_, fun hcovered => ?_⟩
    · have hnonneg := hrecord.commercial_nonneg
      rw [hcommercial] at hnonneg
      linarith
    · have hfits := hcovered hlump
      refine ⟨hfund'.symm ▸ hfund, hsocial.symm ▸ h.social.remain_nonneg, ?_, fun hmonthly => ?_⟩
      · rw [hcommercial]
        linarith
      · rw [honce] at hmonthly
        exact absurd hmonthly (by decide)

/-- A month that is not thin, with a lump sum that is covered, by the closed forms. -/
def Fair (law : Law method) (loan : Loan) (n : ℕ) : Prop :=
  ¬ Thin (law.excess loan n) ∧ (loan.OnceAfter n → loan.onceRepay ≤
    law.balance loan.commercialDebt loan.commercialInterestRate loan.commercialMonths (n + 1))

theorem allMeaningful_of_iteration (hs' : iteration method loan s n = .ok s')
    (h : AllMeaningful loan loan.socialFundBal s'.records) :
    AllMeaningful loan loan.socialFundBal (payMonth method loan n s).records ∧
      AllMeaningful loan loan.socialFundBal s.records := by
  have hmonth : AllMeaningful loan loan.socialFundBal (payMonth method loan n s).records := by
    obtain ⟨_, ⟨_, hrecords⟩ | ⟨_, record, hrecords, _⟩⟩ := payOnce_cases hs'
    · rwa [hrecords] at h
    · rw [hrecords] at h
      exact ((allMeaningful_concat _ _ _ _).mp h).1
  exact ⟨hmonth, ((allMeaningful_concat _ _ _ _).mp hmonth).1⟩

/-- An iteration that keeps the records meaningful is that of a fair month. -/
theorem Funded.fair (h : Funded law loan n (loan.commercialTrack law n) s) (hloan : loan.Proper)
    (hs' : iteration method loan s n = .ok s')
    (hrecords : AllMeaningful loan loan.socialFundBal s'.records) : Fair law loan n := by
  have hthin := (h.payMonth_iff hloan).mp (allMeaningful_of_iteration hs' hrecords).1
  have hmonth := h.payMonth hloan hthin
  rw [Fair, ← h.sound.netting_eq hloan, ← hmonth.sound.covered_iff]
  exact ⟨hthin, ((hmonth.sound.payOnce_meaningful_iff hmonth.fund_nonneg hs').mp hrecords).2⟩

/-- A fair month keeps the records meaningful, and what is known of the variables. -/
theorem Funded.iteration (h : Funded law loan n (loan.commercialTrack law n) s)
    (hloan : loan.Proper) (hfair : Fair law loan n) :
    ∃ s', iteration method loan s n = .ok s' ∧
      Funded law loan (n + 1) (loan.commercialTrack law (n + 1)) s' := by
  rw [Fair, ← h.sound.netting_eq hloan] at hfair
  have hmonth := h.payMonth hloan hfair.1
  have hcovered := hmonth.sound.covered_iff.mpr hfair.2
  obtain ⟨s', hs', hsound⟩ := hmonth.sound.payOnce hloan fun hlump =>
    ⟨hmonth.sound.month_lt hloan hcovered hlump, hcovered hlump⟩
  have hrecords := (hmonth.sound.payOnce_meaningful_iff hmonth.fund_nonneg hs').mpr
    ⟨hmonth.records, hcovered⟩
  obtain ⟨hfund, hcases⟩ := payOnce_cases hs'
  refine ⟨s', hs', hsound, ?_, hfund ▸ hmonth.fund_nonneg, hrecords⟩
  rw [hfund]
  rcases hcases with ⟨_, hsame⟩ | ⟨_, record, happend, _, hrecord, _⟩
  · rw [hsame, hmonth.fund_eq]
  · rw [happend, fundAfter_concat, hrecord]

theorem exists_funded_start (law : Law method) (hloan : loan.Proper)
    (hfund : 0 ≤ loan.socialFundBal) :
    ∃ s, run method loan 0 = .ok s ∧ Funded law loan 0 (loan.commercialTrack law 0) s := by
  obtain ⟨s, hs, hsound⟩ := exists_start law hloan
  refine ⟨s, by rw [run, hs, ok_bind]; rfl, ?_⟩
  obtain ⟨_, _, hs⟩ := bind_eq_ok.mp hs
  obtain ⟨_, _, hs⟩ := bind_eq_ok.mp hs
  cases hs
  exact ⟨hsound, rfl, hfund, trivial⟩

theorem exists_funded (law : Law method) (hloan : loan.Proper) (hfund : 0 ≤ loan.socialFundBal)
    (hfair : ∀ i < n, Fair law loan i) :
    ∃ s, run method loan n = .ok s ∧ Funded law loan n (loan.commercialTrack law n) s := by
  induction n with
  | zero => exact exists_funded_start law hloan hfund
  | succ n ih =>
    obtain ⟨s, hs, hfunded⟩ := ih fun i hi => hfair i (Nat.lt_succ_of_lt hi)
    obtain ⟨s', hs', hfunded'⟩ := hfunded.iteration hloan (hfair n (Nat.lt_succ_self n))
    refine ⟨s', ?_, hfunded'⟩
    rw [run_succ, hs, ok_bind]
    exact hs'

theorem fair_of_run (law : Law method) (hloan : loan.Proper) (hfund : 0 ≤ loan.socialFundBal)
    (hs : run method loan n = .ok s) (hrecords : AllMeaningful loan loan.socialFundBal s.records) :
    ∀ i < n, Fair law loan i := by
  induction n generalizing s with
  | zero => exact fun i hi => absurd hi (Nat.not_lt_zero i)
  | succ n ih =>
    rw [run_succ] at hs
    obtain ⟨before, hbefore, hs⟩ := bind_eq_ok.mp hs
    have hfair := ih hbefore (allMeaningful_of_iteration hs hrecords).2
    obtain ⟨_, hsame, hfunded⟩ := exists_funded law hloan hfund hfair
    cases hsame.symm.trans hbefore
    exact Nat.forall_lt_succ_right.mpr ⟨hfair, hfunded.fair hloan hs hrecords⟩

end Loop

/-! ## The schedules -/

section Schedules

variable {method : Method} (law : Law method) (loan : Loan)

/-- The lump sum, if there is one within the months, is not larger than the debt that the closed
form leaves then. -/
def OnceCovered : Prop :=
  1 < loan.onceRepay → 1 ≤ loan.onceRepayIdx → loan.onceRepayIdx ≤ loan.months →
    loan.onceRepay ≤ law.balance loan.commercialDebt loan.commercialInterestRate
      loan.commercialMonths loan.onceRepayIdx.toNat

/-- In no month do the payments exceed the deposit by a positive amount up to the precision. -/
def NeverThin : Prop :=
  ∀ n < loan.months, ¬ Thin (law.excess loan n)

instance : Decidable (OnceCovered law loan) :=
  inferInstanceAs (Decidable (_ → _ → _ → _))

instance : Decidable (NeverThin law loan) :=
  inferInstanceAs (Decidable (∀ n < _, _))

/-- All months are fair if no month is thin and the lump sum is covered. -/
theorem fair_iff :
    (∀ n < loan.months, Fair law loan n) ↔ OnceCovered law loan ∧ NeverThin law loan := by
  constructor
  · intro hfair
    refine ⟨fun hpos hfirst hlast => ?_, fun n hn => (hfair n hn).1⟩
    obtain ⟨n, hn⟩ : ∃ n : ℕ, loan.onceRepayIdx = n + 1 := ⟨(loan.onceRepayIdx - 1).toNat, by omega⟩
    have hidx : loan.onceRepayIdx.toNat = n + 1 := by omega
    rw [hidx]
    exact (hfair n (by omega)).2 ⟨hpos, hn⟩
  · rintro ⟨hcovered, hthin⟩ n hn
    refine ⟨hthin n hn, fun hlump => ?_⟩
    have hidx : loan.onceRepayIdx.toNat = n + 1 := by
      have := hlump.2
      omega
    rw [← hidx]
    exact hcovered hlump.1 (by omega) (by omega)

end Schedules

/-- What a schedule is to be: it is found, and its records are meaningful from the initial balance
of the fund on. -/
def MeaningfulSchedule (loan : Loan) (result : Except PyError Schedule) : Prop :=
  ∃ schedule, result = .ok schedule ∧ AllMeaningful loan loan.socialFundBal schedule.records

theorem calRepay_meaningful_iff {method : Method} (law : Law method) {loan : Loan}
    (hloan : loan.Proper) (hfund : 0 ≤ loan.socialFundBal) :
    MeaningfulSchedule loan (calRepay method loan) ↔
      OnceCovered law loan ∧ NeverThin law loan := by
  rw [← fair_iff]
  constructor
  · rintro ⟨schedule, hschedule, hrecords⟩
    obtain ⟨s, hs, hschedule⟩ := bind_eq_ok.mp hschedule
    cases hschedule
    exact fair_of_run law hloan hfund hs hrecords
  · intro hfair
    obtain ⟨s, hs, hfunded⟩ := exists_funded law hloan hfund hfair
    exact ⟨_, by rw [calRepay, hs, ok_bind]; rfl, hfunded.records⟩

/-- Both functions come to an end without a division by zero, with records that are never negative
and account for the fund, exactly if the lump sum is covered by the debt that the closed form of
the function leaves, and the payments of the closed form make no month thin. -/
theorem schedules_meaningful_iff (loan : Loan) (hloan : loan.Proper)
    (hfund : 0 ≤ loan.socialFundBal) :
    (MeaningfulSchedule loan loan.calRepayEqPrincipal ↔
      OnceCovered eqPrincipalLaw loan ∧ NeverThin eqPrincipalLaw loan) ∧
    (MeaningfulSchedule loan loan.calRepayEqPrincipalAndinterest ↔
      OnceCovered eqPrincipalAndInterestLaw loan ∧ NeverThin eqPrincipalAndInterestLaw loan) :=
  ⟨calRepay_meaningful_iff eqPrincipalLaw hloan hfund,
    calRepay_meaningful_iff eqPrincipalAndInterestLaw hloan hfund⟩

/-- With a fund, a deposit and a covered lump sum, both functions give meaningful records. -/
theorem shortLoan_meaningful :
    shortLoan.Proper ∧ 0 ≤ shortLoan.socialFundBal ∧
      MeaningfulSchedule shortLoan shortLoan.calRepayEqPrincipal ∧
      MeaningfulSchedule shortLoan shortLoan.calRepayEqPrincipalAndinterest := by
  have hfund : 0 ≤ shortLoan.socialFundBal := by decide +kernel
  have hlaws := schedules_meaningful_iff shortLoan shortLoan_proper hfund
  exact ⟨shortLoan_proper, hfund, hlaws.1.mpr (by decide +kernel), hlaws.2.mpr (by decide +kernel)⟩

/-- A commercial loan of 1200 over two months, of which 612 are due in the first one. -/
def smallLoan (onceRepay : ℚ) (onceRepayIdx : ℤ) (deposit : ℚ) : Loan where
  socialDebt := 0
  commercialDebt := 1200
  socialFundBal := 0
  socialFundMonthly := deposit
  socialInterestRate := 3 / 25
  commercialInterestRate := 3 / 25
  socialMonths := 1
  commercialMonths := 2
  onceRepay := onceRepay
  onceRepayIdx := onceRepayIdx

/-- A lump sum that is larger than the debt leaves a negative debt, and one in the last month of the
loan leads to a division by zero. If the payments exceed the deposit by half of the precision, the
fund is overdrawn, although the same amount is said to be paid from elsewhere. -/
theorem smallLoan_meaningless :
    (∃ schedule, (smallLoan 700 1 0).calRepayEqPrincipal = .ok schedule ∧
      ∃ record ∈ schedule.records, record.commercialDebtRemain = -100) ∧
    (smallLoan 2 2 0).calRepayEqPrincipal = .error .zeroDivision ∧
    (smallLoan 2 2 0).calRepayEqPrincipalAndinterest = .error .zeroDivision ∧
    (∃ schedule, (smallLoan 0 0 (612 - 1 / 200)).calRepayEqPrincipal = .ok schedule ∧
      ∃ record ∈ schedule.records, record.socialFundRemain = -(1 / 200) ∧
        record.extraPay = 1 / 200) := by
  have hfound : ∀ {result : Except PyError Schedule} {P : Schedule → Prop},
      (∃ schedule ∈ result.toOption, P schedule) →
        ∃ schedule, result = .ok schedule ∧ P schedule := by
    rintro (e | schedule) P ⟨found, hfound, h⟩
    · cases hfound
    · cases hfound
      exact ⟨schedule, rfl, h⟩
  exact ⟨hfound (by decide +kernel), by decide +kernel, by decide +kernel,
    hfound (by decide +kernel)⟩

end HakunaMatata.HomeLoan
