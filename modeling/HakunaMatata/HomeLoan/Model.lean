import Mathlib.Algebra.Order.Field.Rat
import HakunaMatata.Base.Memory

/-!
# The home loan calculator, `home_loan_calculator.py`

A house is paid with a loan of the social fund and a commercial loan. The calculator lists the
monthly payments for both, in one of two ways: the same part of the debt every month, or the same
amount every month. The two functions of the source differ in how a loan is paid in one month and
in how the monthly amount is found, which is what a `Method` says; the loop around it is the same.
Numbers are rational, without rounding.
-/

namespace HakunaMatata.HomeLoan

open Base

/-- `ZeroDivisionError`. -/
inductive PyError where
  | zeroDivision
  deriving DecidableEq, Repr

/-- Division. -/
def div (a b : ℚ) : Except PyError ℚ :=
  if b = 0 then .error .zeroDivision else .ok (a / b)

/-- The operator `**` with an integer exponent. -/
def power (a : ℚ) (n : ℤ) : Except PyError ℚ :=
  if a = 0 ∧ n < 0 then .error .zeroDivision else .ok (a ^ n)

/-- `RepayRecord`. -/
structure RepayRecord where
  idx : ℕ
  isOnceRepay : Bool
  repaySocialBal : ℚ
  repaySocialInterest : ℚ
  repayCommercialBal : ℚ
  repayCommercialInterest : ℚ
  extraPay : ℚ
  socialFundRemain : ℚ
  socialDebtRemain : ℚ
  commercialDebtRemain : ℚ
  deriving DecidableEq, Repr

/-- `Loan`. -/
structure Loan where
  socialDebt : ℚ
  commercialDebt : ℚ
  socialFundBal : ℚ
  socialFundMonthly : ℚ
  socialInterestRate : ℚ
  commercialInterestRate : ℚ
  socialMonths : ℕ
  commercialMonths : ℕ
  onceRepay : ℚ
  onceRepayIdx : ℤ
  deriving DecidableEq, Repr

/-- `months`: the loop runs for the longer of the two loans. -/
def Loan.months (loan : Loan) : ℕ :=
  max loan.socialMonths loan.commercialMonths

/-- `precision`: a debt below it counts as paid. -/
def precision : ℚ := 1 / 100

/-- A debt that is not positive is set to zero. -/
def atLeastZero (remain : ℚ) : ℚ :=
  if remain ≤ 0 then 0 else remain

/-- What is paid for one loan in one month, and the debt left. -/
structure Payment where
  bal : ℚ
  interest : ℚ
  remain : ℚ
  deriving DecidableEq, Repr

/-- A way to repay a loan. `perPeriod` is the amount that stays the same from month to month, for a
debt with a yearly rate and a number of months; `pay` is the payment of a month. -/
structure Method where
  perPeriod : ℚ → ℚ → ℤ → Except PyError ℚ
  pay : ℚ → ℚ → ℚ → Payment

/-- The payments of `cal_repay_eq_principal`: the same part of the debt every month, and the
interest on what is left. -/
def eqPrincipal : Method where
  perPeriod debt _ months := div debt months
  pay rate perPeriod remain :=
    { bal := perPeriod
      interest := remain * rate / 12
      remain := atLeastZero (remain - perPeriod) }

/-- The payments of `cal_repay_eq_principal_andinterest`: the same amount every month. -/
def eqPrincipalAndInterest : Method where
  perPeriod debt rate months := do
    let growth ← power (1 + rate / 12) months
    div (debt * (rate / 12 * growth)) (growth - 1)
  pay rate perPeriod remain :=
    let after := remain * (1 + rate / 12) - perPeriod
    { bal := remain - after
      interest := perPeriod - (remain - after)
      remain := atLeastZero after }

/-- The payment for one loan in one month of the loop: nothing once the debt is below the
precision. -/
def payLoan (method : Method) (rate perPeriod remain : ℚ) : Payment :=
  if remain < precision then ⟨0, 0, remain⟩ else method.pay rate perPeriod remain

/-- What is to be paid from elsewhere, and the balance of the fund. -/
structure Netting where
  netting : ℚ
  fund : ℚ
  deriving DecidableEq, Repr

/-- The fund pays what exceeds the monthly deposit, as far as it reaches, and receives what the
deposit exceeds the payments. -/
def settle (netting fund : ℚ) : Netting :=
  if precision < netting then
    if precision < fund then
      if netting < fund then ⟨0, fund - netting⟩ else ⟨netting - fund, 0⟩
    else ⟨netting, fund⟩
  else ⟨netting, fund + -netting⟩

/-- The variables of the loop. -/
structure State where
  socialDebtRemain : ℚ
  socialPerPeriod : ℚ
  commercialDebtRemain : ℚ
  commercialPerPeriod : ℚ
  socialFundRemain : ℚ
  totalRepaySocialBal : ℚ
  totalRepaySocialInterest : ℚ
  totalRepayCommercialBal : ℚ
  totalRepayCommercialInterest : ℚ
  records : List RepayRecord
  deriving DecidableEq, Repr

section Loop

variable (method : Method) (loan : Loan)

/-- The variables before the loop. -/
def start : Except PyError State := do
  let social ← method.perPeriod loan.socialDebt loan.socialInterestRate loan.socialMonths
  let commercial ←
    method.perPeriod loan.commercialDebt loan.commercialInterestRate loan.commercialMonths
  pure
    { socialDebtRemain := loan.socialDebt
      socialPerPeriod := social
      commercialDebtRemain := loan.commercialDebt
      commercialPerPeriod := commercial
      socialFundRemain := loan.socialFundBal
      totalRepaySocialBal := 0
      totalRepaySocialInterest := 0
      totalRepayCommercialBal := 0
      totalRepayCommercialInterest := 0
      records := [] }

/-- The loop body up to the record of month `i`. -/
def payMonth (i : ℕ) (s : State) : State :=
  let social := payLoan method loan.socialInterestRate s.socialPerPeriod s.socialDebtRemain
  let commercial :=
    payLoan method loan.commercialInterestRate s.commercialPerPeriod s.commercialDebtRemain
  let settled := settle (social.bal + social.interest + commercial.bal + commercial.interest
    - loan.socialFundMonthly) s.socialFundRemain
  { s with
    socialDebtRemain := social.remain
    commercialDebtRemain := commercial.remain
    socialFundRemain := settled.fund
    totalRepaySocialBal := s.totalRepaySocialBal + social.bal
    totalRepaySocialInterest := s.totalRepaySocialInterest + social.interest
    totalRepayCommercialBal := s.totalRepayCommercialBal + commercial.bal
    totalRepayCommercialInterest := s.totalRepayCommercialInterest + commercial.interest
    records := s.records ++
      [{ idx := i
         isOnceRepay := false
         repaySocialBal := social.bal
         repaySocialInterest := social.interest
         repayCommercialBal := commercial.bal
         repayCommercialInterest := commercial.interest
         extraPay := settled.netting
         socialFundRemain := settled.fund
         socialDebtRemain := social.remain
         commercialDebtRemain := commercial.remain }] }

/-- The rest of the loop body: a lump sum is paid for the commercial loan, and the monthly amount
is found anew for what is left. -/
def payOnce (i : ℕ) (s : State) : Except PyError State :=
  if 1 < loan.onceRepay ∧ loan.onceRepayIdx = i + 1 then do
    let remain := s.commercialDebtRemain - loan.onceRepay
    let perPeriod ←
      method.perPeriod remain loan.commercialInterestRate (loan.commercialMonths - i - 1)
    pure
      { s with
        commercialDebtRemain := remain
        commercialPerPeriod := perPeriod
        totalRepayCommercialBal := s.totalRepayCommercialBal + loan.onceRepay
        records := s.records ++
          [{ idx := i
             isOnceRepay := true
             repaySocialBal := 0
             repaySocialInterest := 0
             repayCommercialBal := loan.onceRepay
             repayCommercialInterest := 0
             extraPay := loan.onceRepay
             socialFundRemain := s.socialFundRemain
             socialDebtRemain := s.socialDebtRemain
             commercialDebtRemain := remain }] }
  else pure s

/-- One iteration of the loop. -/
def iteration (s : State) (i : ℕ) : Except PyError State :=
  payOnce method loan i (payMonth method loan i s)

/-- The first `n` iterations. -/
def run (n : ℕ) : Except PyError State := do
  let s ← start method loan
  (List.range n).foldlM (iteration method loan) s

end Loop

/-- The records that are returned, and the totals that are printed. -/
structure Schedule where
  records : List RepayRecord
  total : ℚ
  bal : ℚ
  interest : ℚ
  deriving DecidableEq, Repr

/-- The common body of the two functions. -/
def calRepay (method : Method) (loan : Loan) : Except PyError Schedule := do
  let s ← run method loan loan.months
  pure
    { records := s.records
      total := s.totalRepaySocialBal + s.totalRepaySocialInterest + s.totalRepayCommercialBal
        + s.totalRepayCommercialInterest
      bal := s.totalRepaySocialBal + s.totalRepayCommercialBal
      interest := s.totalRepaySocialInterest + s.totalRepayCommercialInterest }

/-- `Loan.cal_repay_eq_principal`. -/
def Loan.calRepayEqPrincipal (loan : Loan) : Except PyError Schedule :=
  calRepay eqPrincipal loan

/-- `Loan.cal_repay_eq_principal_andinterest`. -/
def Loan.calRepayEqPrincipalAndinterest (loan : Loan) : Except PyError Schedule :=
  calRepay eqPrincipalAndInterest loan

/-- The commercial debt outstanding after the payment of month `i + 1`, before a lump sum. -/
def outstanding (method : Method) (loan : Loan) (i : ℕ) : Except PyError ℚ := do
  let s ← run method loan i
  pure (payMonth method loan i s).commercialDebtRemain

end HakunaMatata.HomeLoan
