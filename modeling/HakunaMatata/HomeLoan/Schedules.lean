import HakunaMatata.Base.Amortization
import HakunaMatata.HomeLoan.Model

/-!
# The schedules repay the debts

A `Law` of a method gives its monthly amount and the debt left in closed form. Both methods have
one. A `Track` is a debt with its term and the months that have passed, counted from the start of
the loan or from a lump sum. `OnTrack` says that a loan follows the closed form of its track, until
it is below the precision and stays where it is. `Books` says what the records so far add up to.
Read `calRepay_repays` first.
-/

namespace HakunaMatata.HomeLoan

open Base

/-- The closed form of a method. -/
structure Law (method : Method) where
  amount : ℚ → ℚ → ℕ → ℚ
  balance : ℚ → ℚ → ℕ → ℕ → ℚ
  amortizes : ∀ {debt rate n}, 0 ≤ debt → 0 < rate → 0 < n → Amortizes debt n (balance debt rate n)
  perPeriod_eq : ∀ debt {rate n}, 0 < rate → 0 < n →
    method.perPeriod debt rate (n : ℕ) = .ok (amount debt rate n)
  pay_bal : ∀ debt {rate n}, 0 < rate → 0 < n → ∀ i,
    (method.pay rate (amount debt rate n) (balance debt rate n i)).bal =
      balance debt rate n i - balance debt rate n (i + 1)
  pay_interest : ∀ rate perPeriod remain,
    (method.pay rate perPeriod remain).interest = remain * rate / 12
  pay_remain : ∀ debt {rate n}, 0 < rate → 0 < n → ∀ i,
    (method.pay rate (amount debt rate n) (balance debt rate n i)).remain =
      atLeastZero (balance debt rate n (i + 1))

theorem div_of_ne {a b : ℚ} (h : b ≠ 0) : div a b = .ok (a / b) :=
  if_neg h

/-- The closed form of equal parts of the debt. -/
def eqPrincipalLaw : Law eqPrincipal where
  amount debt _ n := debt / n
  balance debt _ n i := equalPrincipal debt n i
  amortizes hdebt _ hn := amortizes_equalPrincipal hdebt hn
  perPeriod_eq _ _ _ _ hn := div_of_ne (Int.cast_ne_zero.mpr (by omega))
  pay_bal _ _ _ _ _ i := by
    rw [equalPrincipal_succ, sub_sub_cancel]
    rfl
  pay_interest _ _ _ := rfl
  pay_remain _ _ _ _ _ i := by
    rw [equalPrincipal_succ]
    rfl

theorem power_natCast {a : ℚ} (n : ℕ) : power a n = .ok (a ^ n) := by
  rw [power, if_neg (by omega), zpow_natCast]

theorem growth_ne_zero {rate : ℚ} {n : ℕ} (hrate : 0 < rate) (hn : 0 < n) :
    (1 + rate / 12) ^ n - 1 ≠ 0 :=
  (annuity_growth_pos (by positivity) hn).ne'

/-- The closed form of equal payments. -/
def eqPrincipalAndInterestLaw : Law eqPrincipalAndInterest where
  amount debt rate n := annuityPayment debt (rate / 12) n
  balance debt rate n i := annuityBalance debt (rate / 12) n i
  amortizes hdebt hrate hn := amortizes_annuity hdebt (by positivity) hn
  perPeriod_eq debt rate n hrate hn := by
    simp only [eqPrincipalAndInterest, power_natCast, ok_bind]
    exact div_of_ne (growth_ne_zero hrate hn)
  pay_bal debt rate n hrate hn i := by
    rw [annuityBalance_succ (growth_ne_zero hrate hn)]
    rfl
  pay_interest rate perPeriod remain := by
    simp only [eqPrincipalAndInterest]
    ring
  pay_remain debt rate n hrate hn i := by
    rw [annuityBalance_succ (growth_ne_zero hrate hn)]
    rfl

/-! ## One loan -/

/-- A debt, the months in which it is repaid, and how many of them have passed. -/
structure Track where
  debt : ℚ
  months : ℕ
  passed : ℕ

/-- A month later. -/
def Track.next (t : Track) : Track :=
  { t with passed := t.passed + 1 }

section Track

variable {method : Method} (law : Law method) {rate amount remain : ℚ} {t : Track}

/-- The debt left by the closed form. -/
def Law.owed (rate : ℚ) (t : Track) : ℚ :=
  law.balance t.debt rate t.months t.passed

/-- What is due for the next month: principal and interest, or nothing below the precision. -/
def Law.due (rate : ℚ) (t : Track) : ℚ :=
  if law.owed rate t < precision then 0
  else law.owed rate t - law.owed rate t.next + law.owed rate t * rate / 12

/-- The loan follows the closed form during its term, or both are below the precision. -/
structure OnTrack (rate : ℚ) (t : Track) (amount remain : ℚ) : Prop where
  debt_nonneg : 0 ≤ t.debt
  months_pos : 0 < t.months
  amount_eq : amount = law.amount t.debt rate t.months
  remain_nonneg : 0 ≤ remain
  follows : remain = law.owed rate t ∧ t.passed ≤ t.months ∨
    remain < precision ∧ law.owed rate t < precision

theorem onTrack_start {debt : ℚ} {n : ℕ} (hdebt : 0 ≤ debt) (hrate : 0 < rate) (hn : 0 < n) :
    OnTrack law rate ⟨debt, n, 0⟩ (law.amount debt rate n) debt :=
  ⟨hdebt, hn, rfl, hdebt, Or.inl ⟨(law.amortizes hdebt hrate hn).start.symm, Nat.zero_le n⟩⟩

variable {law}

theorem OnTrack.amortizes (h : OnTrack law rate t amount remain) (hrate : 0 < rate) :
    Amortizes t.debt t.months (law.balance t.debt rate t.months) :=
  law.amortizes h.debt_nonneg hrate h.months_pos

/-- A debt from the precision on is that of the closed form. -/
theorem OnTrack.remain_eq (h : OnTrack law rate t amount remain) (hlarge : ¬ remain < precision) :
    remain = law.owed rate t ∧ t.passed ≤ t.months :=
  h.follows.resolve_right fun hsmall => hlarge hsmall.1

theorem OnTrack.paid (h : OnTrack law rate t amount remain) (hrate : 0 < rate)
    (hend : t.months ≤ t.passed) : 0 ≤ remain ∧ remain < precision := by
  refine ⟨h.remain_nonneg, ?_⟩
  by_contra hlarge
  obtain ⟨hremain, hpassed⟩ := h.remain_eq hlarge
  rw [Law.owed, Nat.le_antisymm hpassed hend, (h.amortizes hrate).paid] at hremain
  exact hlarge (hremain ▸ by norm_num [precision])

theorem atLeastZero_of_nonneg (h : 0 ≤ remain) : atLeastZero remain = remain := by
  unfold atLeastZero
  split
  · rename_i hle
    exact le_antisymm h hle
  · rfl

/-- What a month does to a loan. -/
structure Paid (before : ℚ) (payment : Payment) : Prop where
  falls : payment.remain ≤ before
  bal_eq : payment.bal = before - payment.remain

/-- The payment of a month reduces the debt by its principal part, and keeps the loan on track. It
is what is due by the closed form. -/
theorem OnTrack.payLoan (h : OnTrack law rate t amount remain) (hrate : 0 < rate) :
    Paid remain (payLoan method rate amount remain) ∧
      OnTrack law rate t.next amount (payLoan method rate amount remain).remain ∧
      (payLoan method rate amount remain).bal + (payLoan method rate amount remain).interest =
        law.due rate t := by
  have hplan := h.amortizes hrate
  unfold HomeLoan.payLoan Law.due
  split
  · rename_i hsmall
    have hclosed : law.owed rate t < precision := by
      rcases h.follows with ⟨heq, _⟩ | hboth
      · exact heq ▸ hsmall
      · exact hboth.2
    refine ⟨⟨le_refl _, (sub_self _).symm⟩, ?_, by rw [if_pos hclosed, add_zero]⟩
    exact ⟨h.debt_nonneg, h.months_pos, h.amount_eq, h.remain_nonneg,
      Or.inr ⟨hsmall, (hplan.falls (Nat.le_succ t.passed)).trans_lt hclosed⟩⟩
  · rename_i hlarge
    obtain ⟨hremain, hpassed⟩ := h.remain_eq hlarge
    have hterm : t.passed + 1 ≤ t.months := by
      refine Nat.lt_of_le_of_ne hpassed fun hend => hlarge (h.paid hrate hend.ge).2
    have hnext : 0 ≤ law.owed rate t.next := hplan.nonneg hterm
    have hpay : (method.pay rate amount remain).remain = law.owed rate t.next := by
      rw [h.amount_eq, hremain]
      exact (law.pay_remain t.debt hrate h.months_pos t.passed).trans (atLeastZero_of_nonneg hnext)
    have hbal : (method.pay rate amount remain).bal = remain - law.owed rate t.next := by
      rw [h.amount_eq, hremain]
      exact law.pay_bal t.debt hrate h.months_pos t.passed
    rw [if_neg (hremain ▸ hlarge), law.pay_interest, hbal, ← hremain]
    refine ⟨⟨?_, ?_⟩, ?_, rfl⟩
    · rw [hpay, hremain]
      exact hplan.falls (Nat.le_succ t.passed)
    · rw [hpay]
      exact hbal
    · exact ⟨h.debt_nonneg, h.months_pos, h.amount_eq, hpay ▸ hnext, Or.inl ⟨hpay, hterm⟩⟩

end Track

/-! ## The records -/

/-- The records so far: the principal parts add up to what has been repaid, the last record has the
debts of the loop's variables, and the debts never increase. -/
structure Books (loan : Loan) (s : State) : Prop where
  social_sum : (s.records.map RepayRecord.repaySocialBal).sum = loan.socialDebt - s.socialDebtRemain
  commercial_sum : (s.records.map RepayRecord.repayCommercialBal).sum =
    loan.commercialDebt - s.commercialDebtRemain
  last : ∀ record ∈ s.records.getLast?, record.socialDebtRemain = s.socialDebtRemain ∧
    record.commercialDebtRemain = s.commercialDebtRemain
  le : ∀ record ∈ s.records, s.socialDebtRemain ≤ record.socialDebtRemain ∧
    s.commercialDebtRemain ≤ record.commercialDebtRemain
  falls : s.records.Pairwise fun earlier later =>
    later.socialDebtRemain ≤ earlier.socialDebtRemain ∧
      later.commercialDebtRemain ≤ earlier.commercialDebtRemain

theorem Books.append {loan : Loan} {s s' : State} {record : RepayRecord} (h : Books loan s)
    (hrecords : s'.records = s.records ++ [record])
    (hsocial : record.socialDebtRemain = s'.socialDebtRemain)
    (hcommercial : record.commercialDebtRemain = s'.commercialDebtRemain)
    (hsocialPaid : Paid s.socialDebtRemain
      ⟨record.repaySocialBal, record.repaySocialInterest, s'.socialDebtRemain⟩)
    (hcommercialPaid : Paid s.commercialDebtRemain
      ⟨record.repayCommercialBal, record.repayCommercialInterest, s'.commercialDebtRemain⟩) :
    Books loan s' := by
  have hle : ∀ earlier ∈ s.records, s'.socialDebtRemain ≤ earlier.socialDebtRemain ∧
      s'.commercialDebtRemain ≤ earlier.commercialDebtRemain := fun earlier hearlier =>
    ⟨hsocialPaid.falls.trans (h.le earlier hearlier).1,
      hcommercialPaid.falls.trans (h.le earlier hearlier).2⟩
  refine ⟨?_, ?_, ?_, ?_, ?_⟩
  · have hbal := hsocialPaid.bal_eq
    dsimp only at hbal
    rw [hrecords, List.map_append, List.sum_append, h.social_sum, List.map_singleton,
      List.sum_singleton, hbal]
    ring
  · have hbal := hcommercialPaid.bal_eq
    dsimp only at hbal
    rw [hrecords, List.map_append, List.sum_append, h.commercial_sum, List.map_singleton,
      List.sum_singleton, hbal]
    ring
  · intro last hlast
    rw [hrecords, List.getLast?_concat] at hlast
    cases hlast
    exact ⟨hsocial, hcommercial⟩
  · intro earlier hearlier
    rw [hrecords, List.mem_append, List.mem_singleton] at hearlier
    rcases hearlier with hearlier | rfl
    · exact hle earlier hearlier
    · exact ⟨hsocial.ge, hcommercial.ge⟩
  · rw [hrecords, List.pairwise_append]
    refine ⟨h.falls, List.pairwise_singleton _ _, fun earlier hearlier later hlater => ?_⟩
    rw [List.mem_singleton] at hlater
    subst hlater
    rw [hsocial, hcommercial]
    exact hle earlier hearlier

/-! ## The loop -/

/-- The debts are not negative, the rates are positive, and both loans have a term. -/
structure Loan.Proper (loan : Loan) : Prop where
  socialDebt : 0 ≤ loan.socialDebt
  commercialDebt : 0 ≤ loan.commercialDebt
  socialRate : 0 < loan.socialInterestRate
  commercialRate : 0 < loan.commercialInterestRate
  socialMonths : 1 ≤ loan.socialMonths
  commercialMonths : 1 ≤ loan.commercialMonths

/-- A lump sum is made after month `i + 1`. -/
def Loan.OnceAfter (loan : Loan) (i : ℕ) : Prop :=
  1 < loan.onceRepay ∧ loan.onceRepayIdx = i + 1

/-- If there is a lump sum, it is made before the end of the commercial loan, and is not larger than
the debt outstanding then. -/
def OnceFits (method : Method) (loan : Loan) : Prop :=
  ∀ i < loan.months, loan.OnceAfter i → i + 1 < loan.commercialMonths ∧
    ∀ debt, outstanding method loan i = .ok debt → loan.onceRepay ≤ debt

section Loop

variable {method : Method} {law : Law method} {loan : Loan} {s : State} {i n : ℕ} {t : Track}

/-- The social loan after `n` months. -/
def Loan.socialTrack (loan : Loan) (n : ℕ) : Track :=
  ⟨loan.socialDebt, loan.socialMonths, n⟩

/-- The commercial loan after `n` months, by its closed form. After a lump sum it is a loan of what
is left then, for the rest of the months. -/
def Loan.commercialTrack (law : Law method) (loan : Loan) (n : ℕ) : Track :=
  if 1 < loan.onceRepay ∧ 1 ≤ loan.onceRepayIdx ∧ loan.onceRepayIdx ≤ n then
    ⟨law.balance loan.commercialDebt loan.commercialInterestRate loan.commercialMonths
        loan.onceRepayIdx.toNat - loan.onceRepay,
      loan.commercialMonths - loan.onceRepayIdx.toNat, n - loan.onceRepayIdx.toNat⟩
  else ⟨loan.commercialDebt, loan.commercialMonths, n⟩

/-- Until the lump sum the loan is as it was taken. -/
theorem commercialTrack_before (h : loan.OnceAfter n) :
    loan.commercialTrack law n = ⟨loan.commercialDebt, loan.commercialMonths, n⟩ := by
  have hidx := h.2
  exact if_neg fun hlump => absurd hlump.2.2 (by omega)

/-- At the lump sum the loan starts anew. -/
theorem commercialTrack_of_once (h : loan.OnceAfter n) :
    loan.commercialTrack law (n + 1) =
      ⟨law.balance loan.commercialDebt loan.commercialInterestRate loan.commercialMonths (n + 1)
        - loan.onceRepay, loan.commercialMonths - (n + 1), 0⟩ := by
  have hidx := h.2
  have htoNat : loan.onceRepayIdx.toNat = n + 1 := by omega
  rw [Loan.commercialTrack, if_pos ⟨h.1, by omega, by omega⟩, htoNat, Nat.sub_self]

theorem commercialTrack_succ (h : ¬ loan.OnceAfter n) :
    loan.commercialTrack law (n + 1) = (loan.commercialTrack law n).next := by
  unfold Loan.commercialTrack
  by_cases hlump : 1 < loan.onceRepay ∧ 1 ≤ loan.onceRepayIdx ∧ loan.onceRepayIdx ≤ n
  · rw [if_pos hlump, if_pos ⟨hlump.1, hlump.2.1, by push_cast; omega⟩, Track.next,
      Nat.sub_add_comm (by omega)]
  · rw [if_neg hlump, if_neg]
    · rfl
    · rintro ⟨hpos, hfirst, hlast⟩
      refine h ⟨hpos, ?_⟩
      by_contra hne
      push_cast at hlast
      exact hlump ⟨hpos, hfirst, by omega⟩

/-- The months that have passed are those of the loop, counted from the lump sum on. -/
theorem months_le_passed (law : Law method) (h : loan.commercialMonths ≤ n) :
    (loan.commercialTrack law n).months ≤ (loan.commercialTrack law n).passed := by
  unfold Loan.commercialTrack
  split
  · exact Nat.sub_le_sub_right h _
  · exact h

theorem precision_lt_one : precision < 1 := by norm_num [precision]

/-- The variables of the loop after `n` months, with the commercial loan on this track. -/
structure Sound (law : Law method) (loan : Loan) (n : ℕ) (t : Track) (s : State) : Prop where
  social : OnTrack law loan.socialInterestRate (loan.socialTrack n) s.socialPerPeriod
    s.socialDebtRemain
  commercial : OnTrack law loan.commercialInterestRate t s.commercialPerPeriod
    s.commercialDebtRemain
  books : Books loan s
  some_record : 0 < n → s.records ≠ []

theorem exists_start (law : Law method) (hloan : loan.Proper) :
    ∃ s, start method loan = .ok s ∧ Sound law loan 0 (loan.commercialTrack law 0) s := by
  have hsocial := law.perPeriod_eq loan.socialDebt hloan.socialRate hloan.socialMonths
  have hcommercial :=
    law.perPeriod_eq loan.commercialDebt hloan.commercialRate hloan.commercialMonths
  have htrack : loan.commercialTrack law 0 = ⟨loan.commercialDebt, loan.commercialMonths, 0⟩ :=
    if_neg fun hlump => by
      have := hlump.2
      omega
  refine ⟨_, by rw [start, hsocial, ok_bind, hcommercial, ok_bind]; rfl, ?_, ?_, ?_, ?_⟩
  · exact onTrack_start law hloan.socialDebt hloan.socialRate hloan.socialMonths
  · rw [htrack]
    exact onTrack_start law hloan.commercialDebt hloan.commercialRate hloan.commercialMonths
  · exact ⟨(sub_self _).symm, (sub_self _).symm, by simp, by simp, List.Pairwise.nil⟩
  · exact fun h => absurd h (Nat.lt_irrefl 0)

theorem Sound.payMonth (h : Sound law loan n t s) (hloan : loan.Proper) :
    Sound law loan (n + 1) t.next (payMonth method loan n s) := by
  obtain ⟨hsocial, hsocialTrack, _⟩ := h.social.payLoan hloan.socialRate
  obtain ⟨hcommercial, hcommercialTrack, _⟩ := h.commercial.payLoan hloan.commercialRate
  refine ⟨hsocialTrack, hcommercialTrack, ?_, ?_⟩
  · exact h.books.append rfl rfl rfl ⟨hsocial.falls, hsocial.bal_eq⟩
      ⟨hcommercial.falls, hcommercial.bal_eq⟩
  · exact fun _ => List.append_ne_nil_of_right_ne_nil _ (List.cons_ne_nil _ _)

/-- A lump sum is larger than a debt below the precision, so that one which fits meets the closed
form. -/
theorem Sound.owed_of_once (h : Sound law loan (n + 1) (loan.commercialTrack law n).next s)
    (hlump : loan.OnceAfter n) (hfits : loan.onceRepay ≤ s.commercialDebtRemain) :
    s.commercialDebtRemain = law.balance loan.commercialDebt loan.commercialInterestRate
      loan.commercialMonths (n + 1) := by
  have hlarge : ¬ s.commercialDebtRemain < precision := by
    have hpos : 1 < loan.onceRepay := hlump.1
    have hprecision := precision_lt_one
    linarith
  have howed := (h.commercial.remain_eq hlarge).1
  rw [commercialTrack_before hlump] at howed
  exact howed

theorem Sound.payOnce (h : Sound law loan (n + 1) (loan.commercialTrack law n).next s)
    (hloan : loan.Proper) (honce : loan.OnceAfter n → n + 1 < loan.commercialMonths ∧
      loan.onceRepay ≤ s.commercialDebtRemain) :
    ∃ s', payOnce method loan n s = .ok s' ∧
      Sound law loan (n + 1) (loan.commercialTrack law (n + 1)) s' := by
  by_cases hlump : loan.OnceAfter n
  · obtain ⟨hmonth, hfits⟩ := honce hlump
    have hremain : 0 ≤ s.commercialDebtRemain - loan.onceRepay := by linarith
    have hleft : 0 < loan.commercialMonths - (n + 1) := by omega
    have hperPeriod := law.perPeriod_eq (s.commercialDebtRemain - loan.onceRepay)
      hloan.commercialRate hleft
    have hmonths : ((loan.commercialMonths : ℤ) - n - 1) =
        ((loan.commercialMonths - (n + 1) : ℕ) : ℤ) := by omega
    unfold HomeLoan.payOnce
    rw [if_pos (show 1 < loan.onceRepay ∧ loan.onceRepayIdx = n + 1 from hlump),
      commercialTrack_of_once hlump, ← h.owed_of_once hlump hfits]
    simp only [hmonths, hperPeriod, ok_bind]
    refine ⟨_, rfl, h.social, ?_, ?_, ?_⟩
    · exact onTrack_start law hremain hloan.commercialRate hleft
    · refine h.books.append rfl rfl rfl ⟨le_refl _, (sub_self _).symm⟩ ⟨?_, ?_⟩
      · have hpos : 1 < loan.onceRepay := hlump.1
        show s.commercialDebtRemain - loan.onceRepay ≤ s.commercialDebtRemain
        linarith
      · exact (sub_sub_cancel _ _).symm
    · exact fun _ => List.append_ne_nil_of_right_ne_nil _ (List.cons_ne_nil _ _)
  · rw [commercialTrack_succ hlump]
    exact ⟨s, if_neg hlump, h⟩

theorem run_succ (n : ℕ) :
    run method loan (n + 1) = run method loan n >>= fun s => iteration method loan s n := by
  unfold run
  rw [List.range_succ]
  cases start method loan with
  | error e => rfl
  | ok s =>
    rw [ok_bind, ok_bind, List.foldlM_append]
    simp only [List.foldlM_cons, List.foldlM_nil, bind_pure]

theorem exists_run (law : Law method) (hloan : loan.Proper) (honce : OnceFits method loan)
    (hn : n ≤ loan.months) :
    ∃ s, run method loan n = .ok s ∧ Sound law loan n (loan.commercialTrack law n) s := by
  induction n with
  | zero =>
    obtain ⟨s, hs, hsound⟩ := exists_start law hloan
    exact ⟨s, by rw [run, hs, ok_bind]; rfl, hsound⟩
  | succ n ih =>
    obtain ⟨s, hs, hsound⟩ := ih (by omega)
    have hmonth := hsound.payMonth hloan
    obtain ⟨s', hs', hsound'⟩ := hmonth.payOnce hloan fun hlump => by
      obtain ⟨hterm, hfits⟩ := honce n hn hlump
      refine ⟨hterm, hfits _ ?_⟩
      rw [outstanding, hs, ok_bind]
      rfl
    refine ⟨s', ?_, hsound'⟩
    rw [run_succ, hs, ok_bind]
    exact hs'

end Loop

/-! ## The schedules -/

/-- What the records of a schedule have to say: the principal parts of each loan add up to the
initial debt less the debt in the last record, which is less than the precision, and the debts
never increase. -/
structure Repays (loan : Loan) (schedule : Schedule) : Prop where
  last : ∃ record, schedule.records.getLast? = some record ∧
    (0 ≤ record.socialDebtRemain ∧ record.socialDebtRemain < 1 / 100) ∧
    (0 ≤ record.commercialDebtRemain ∧ record.commercialDebtRemain < 1 / 100) ∧
    (schedule.records.map RepayRecord.repaySocialBal).sum =
      loan.socialDebt - record.socialDebtRemain ∧
    (schedule.records.map RepayRecord.repayCommercialBal).sum =
      loan.commercialDebt - record.commercialDebtRemain
  falls : schedule.records.Pairwise fun earlier later =>
    later.socialDebtRemain ≤ earlier.socialDebtRemain ∧
      later.commercialDebtRemain ≤ earlier.commercialDebtRemain

theorem calRepay_repays {method : Method} (law : Law method) {loan : Loan} (hloan : loan.Proper)
    (honce : OnceFits method loan) :
    ∃ schedule, calRepay method loan = .ok schedule ∧ Repays loan schedule := by
  obtain ⟨s, hs, hsound⟩ := exists_run law hloan honce (le_refl _)
  refine ⟨_, by rw [calRepay, hs, ok_bind]; rfl, ?_, hsound.books.falls⟩
  have hmonths : 0 < loan.months := lt_max_of_lt_left hloan.socialMonths
  obtain ⟨record, hrecord⟩ : ∃ record, s.records.getLast? = some record :=
    ⟨_, List.getLast?_eq_some_getLast (hsound.some_record hmonths)⟩
  obtain ⟨hsocial, hcommercial⟩ := hsound.books.last record hrecord
  -- both terms are over
  have hsocialPaid := hsound.social.paid hloan.socialRate (le_max_left ..)
  have hcommercialPaid := hsound.commercial.paid hloan.commercialRate
    (months_le_passed law (le_max_right ..))
  refine ⟨record, hrecord, ?_, ?_, ?_, ?_⟩
  · rw [hsocial]
    exact hsocialPaid
  · rw [hcommercial]
    exact hcommercialPaid
  · rw [hsocial]
    exact hsound.books.social_sum
  · rw [hcommercial]
    exact hsound.books.commercial_sum

/-- Both functions come to an end without a division by zero, and their records repay both
debts. -/
theorem schedules_repay (loan : Loan) (hloan : loan.Proper) :
    (OnceFits eqPrincipal loan →
      ∃ schedule, loan.calRepayEqPrincipal = .ok schedule ∧ Repays loan schedule) ∧
    (OnceFits eqPrincipalAndInterest loan →
      ∃ schedule, loan.calRepayEqPrincipalAndinterest = .ok schedule ∧ Repays loan schedule) :=
  ⟨calRepay_repays eqPrincipalLaw hloan, calRepay_repays eqPrincipalAndInterestLaw hloan⟩

/-- Loans over two and three months, and a lump sum after the first one. -/
def shortLoan : Loan where
  socialDebt := 1000
  commercialDebt := 1200
  socialFundBal := 50
  socialFundMonthly := 100
  socialInterestRate := 3 / 25
  commercialInterestRate := 6 / 25
  socialMonths := 2
  commercialMonths := 3
  onceRepay := 500
  onceRepayIdx := 1

theorem shortLoan_proper : shortLoan.Proper := by
  constructor <;> simp only [shortLoan] <;> norm_num

theorem shortLoan_onceFits {method : Method}
    (h : ∀ debt, outstanding method shortLoan 0 = .ok debt → 500 ≤ debt) :
    OnceFits method shortLoan := by
  intro i _ hlump
  obtain rfl : i = 0 := by
    have hidx : (1 : ℤ) = i + 1 := hlump.2
    omega
  exact ⟨by decide, h⟩

theorem shortLoan_repays :
    (∃ schedule, shortLoan.calRepayEqPrincipal = .ok schedule ∧ Repays shortLoan schedule) ∧
    (∃ schedule, shortLoan.calRepayEqPrincipalAndinterest = .ok schedule ∧
      Repays shortLoan schedule) := by
  have hprincipal : outstanding eqPrincipal shortLoan 0 = .ok 800 := by decide +kernel
  have hannuity : outstanding eqPrincipalAndInterest shortLoan 0 = .ok (6181200 / 7651) := by
    decide +kernel
  refine ⟨(schedules_repay shortLoan shortLoan_proper).1 (shortLoan_onceFits ?_),
    (schedules_repay shortLoan shortLoan_proper).2 (shortLoan_onceFits ?_)⟩
  · intro debt hdebt
    rw [hprincipal] at hdebt
    cases hdebt
    norm_num
  · intro debt hdebt
    rw [hannuity] at hdebt
    cases hdebt
    norm_num

end HakunaMatata.HomeLoan
