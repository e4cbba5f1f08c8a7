import StateTableBench.Arithmetic.Exactness
import StateTableBench.Collections.Increments
import StateTableBench.DataAnalysis.JmxLog

/-!
# Deltas of counters

`discrete_derivative` turns the samples of a counter into the deltas at which it has risen. The
differences of integers are exact. Those of `double`s are rounded, so the deltas of a counter that
is read from a log are exact as long as its differences are numbers of the format, for example up
to `2 ^ 53`.

* `exists_delta` — what the difference of two samples is converted to;
* `conserves` — the deltas are the rises of the counter, each with its time.
-/

open Binary64 Increments Text.Numerals

open ExperimentReader (PythonException)

namespace JmxLogReader

/-! ## Arithmetic of Python -/

namespace Number

/-- An operand of an operation on `double`s. -/
def toDouble : Number → Except PythonException Float
  | long z => if (ofInt z).isFinite then .ok (ofInt z) else .error .overflowError
  | float x => .ok x

/-- `a - b` -/
def sub : Number → Number → Except PythonException Number
  | long a, long b => .ok (long (a - b))
  | a, b => do
    let x ← a.toDouble
    let y ← b.toDouble
    return float (x - y)

/-- `int(a)` -/
def int : Number → Except PythonException ℤ
  | long z => .ok z
  | float x =>
    match x.toModel.unpack with
    | .notANumber => .error .valueError
    | .infinity _ => .error .overflowError
    -- the digits after the point are cut off
    | f => .ok (f.toInt 0 0)

end Number

/-- `(t - x0) / 1000.0` -/
def seconds (t x0 : Number) : Except PythonException Float := do
  let difference ← t.sub x0
  let x ← difference.toDouble
  return x / 1000.0

/-- `int(y - last_y)` -/
def delta (y lastY : Number) : Except PythonException ℤ := do
  let difference ← y.sub lastY
  difference.int

/-- The body of the loop of `discrete_derivative`, with `last_y` and the points. -/
def derivativeStep (x0 : Number) (s : Number × List (Float × ℤ)) (sample : Sample) :
    Except PythonException (Number × List (Float × ℤ)) := do
  let deltaY ← delta sample.2 s.1
  if 0 < deltaY then
    let x ← seconds sample.1 x0
    return (sample.2, s.2 ++ [(x, deltaY)])
  else return (sample.2, s.2)

/-- `discrete_derivative` -/
def discreteDerivative (data : List Sample) (x0 : Number) :
    Except PythonException (List (Float × ℤ)) :=
  match data with
  | [] => .error .indexError
  | first :: _ => do
    let s ← data.foldlM (derivativeStep x0) (first.2, [])
    return s.2

/-! ## Counters -/

/-- The number is this integer. -/
def Number.IsInteger (v : ℤ) : Number → Prop
  | .long z => z = v
  | .float x => IsValue v x

/-- The conversion to a `double` does not change the integer. -/
def Number.Converts (v : ℤ) : Number → Prop
  | .long _ => Representable |(v : ℚ)| ∧ |(v : ℚ)| ≤ largest
  | .float _ => True

/-- A sample of a counter whose values are integers. -/
structure CounterSample where
  time : Number
  count : Number
  value : ℤ
  isInteger : count.IsInteger value

namespace CounterSample

def sample (s : CounterSample) : Sample := (s.time, s.count)

/-- The value of a sample with its time. -/
def timed (s : CounterSample) : Number × ℤ := (s.time, s.value)

/-- The difference of two samples is not rounded where the counter rises, and does not overflow. -/
def ExactStep (s s' : CounterSample) : Prop :=
  match s'.count, s.count with
  | .long _, .long _ => True
  | _, _ => s'.count.Converts s'.value ∧ s.count.Converts s.value ∧
      |((s'.value - s.value : ℤ) : ℚ)| ≤ largest ∧
      (s.value < s'.value → Representable |((s'.value - s.value : ℤ) : ℚ)|)

end CounterSample

/-- An integer that a double holds is converted to that double. -/
theorem Number.exists_toDouble {a : Number} {v : ℤ} (ha : a.IsInteger v)
    (hconverts : a.Converts v) : ∃ x, a.toDouble = .ok x ∧ IsValue v x := by
  cases a with
  | float x => exact ⟨x, rfl, ha⟩
  | long z =>
    obtain rfl : z = v := ha
    have hrounded := isRounded_ofInt hconverts.2
    have hfinite : (ofInt z).isFinite = true :=
      Within.isFinite (hrounded.atMost largest representable_largest hconverts.2)
    exact ⟨ofInt z, if_pos hfinite, isValue_ofInt hconverts.1 hconverts.2⟩

/-- The integer part of a number that is not too large. -/
theorem Number.int_float {q : ℚ} {x : Float} (h : IsRounded q x) (hle : |q| ≤ largest) :
    (Number.float x).int = .ok (x.toModel.unpack.toInt 0 0) := by
  have hfinite := h.atMost largest representable_largest hle
  rw [Number.int]
  cases hunpack : x.toModel.unpack with
  | infinity =>
    rw [hunpack] at hfinite
    exact hfinite.elim
  | notANumber =>
    rw [hunpack] at hfinite
    exact hfinite.elim
  | zero sign => rfl
  | finite sign m e hm => rfl

/-- A difference of `double`s. -/
theorem exists_delta_double {y lastY : Number} {v w : ℤ} (hsub : y.sub lastY = do
      let x ← y.toDouble
      let x' ← lastY.toDouble
      return .float (x - x'))
    (hy : y.IsInteger w) (hlast : lastY.IsInteger v) (hy' : y.Converts w)
    (hlast' : lastY.Converts v) (hle : |((w - v : ℤ) : ℚ)| ≤ largest)
    (hexact : v < w → Representable |((w - v : ℤ) : ℚ)|) :
    ∃ d, delta y lastY = .ok d ∧ (v < w → d = w - v) ∧ (w ≤ v → d ≤ 0) := by
  obtain ⟨x, hx, hvalue⟩ := Number.exists_toDouble hy hy'
  obtain ⟨x', hx', hvalue'⟩ := Number.exists_toDouble hlast hlast'
  have hrounded : IsRounded ((w - v : ℤ) : ℚ) (x - x') := by
    rw [Int.cast_sub] at hle ⊢
    exact hvalue.sub hvalue' hle
  refine ⟨_, ?_, fun hlt => (hrounded.exact (hexact hlt)).toInt_eq 0 0, fun hge => ?_⟩
  · rw [delta, hsub, hx, hx']
    exact Number.int_float hrounded hle
  · have hnonpos : ((w - v : ℤ) : ℚ) ≤ 0 := Int.cast_nonpos.mpr (by omega)
    exact (hrounded.nonpos hnonpos).toInt_nonpos
      (hrounded.atMost largest representable_largest hle) 0 0

/-- A rise is converted to the exact delta, and any other difference to none above zero. -/
theorem exists_delta {s s' : CounterSample} (h : s.ExactStep s') :
    ∃ d, delta s'.count s.count = .ok d ∧ (s.value < s'.value → d = s'.value - s.value) ∧
      (s'.value ≤ s.value → d ≤ 0) := by
  obtain ⟨time, count, v, hcount⟩ := s
  obtain ⟨time', count', w, hcount'⟩ := s'
  unfold CounterSample.ExactStep at h
  cases count' with
  | long z' =>
    cases count with
    | long z =>
      obtain rfl : z = v := hcount
      obtain rfl : z' = w := hcount'
      exact ⟨z' - z, rfl, fun _ => rfl, fun hle => by simpa using hle⟩
    | float x => exact exists_delta_double rfl hcount' hcount h.1 h.2.1 h.2.2.1 h.2.2.2
  | float x' =>
    cases count with
    | long z => exact exists_delta_double rfl hcount' hcount h.1 h.2.1 h.2.2.1 h.2.2.2
    | float x => exact exists_delta_double rfl hcount' hcount h.1 h.2.1 h.2.2.1 h.2.2.2

/-- The first sample has no difference to itself. -/
theorem exactStep_self (s : CounterSample) : s.ExactStep s := by
  obtain ⟨time, count, v, hcount⟩ := s
  cases count with
  | long z => trivial
  | float x =>
    refine ⟨trivial, trivial, ?_, fun hlt => absurd hlt (lt_irrefl v)⟩
    rw [sub_self, Int.cast_zero, abs_zero]
    exact mul_nonneg (Nat.cast_nonneg _) (two_zpow_pos _).le

/-! ## The loop -/

section Loop

variable {x0 : Number}

/-- The point has the delta of the rise, and its time. -/
def IsPoint (x0 : Number) (rise : Number × ℤ) (point : Float × ℤ) : Prop :=
  seconds rise.1 x0 = .ok point.1 ∧ point.2 = rise.2

/-- A rise is recorded with its time. -/
theorem derivativeStep_of_pos {s : Number × List (Float × ℤ)} {sample : Sample} {d : ℤ} {x : Float}
    (hdelta : delta sample.2 s.1 = .ok d) (hd : 0 < d) (hx : seconds sample.1 x0 = .ok x) :
    derivativeStep x0 s sample = .ok (sample.2, s.2 ++ [(x, d)]) := by
  rw [derivativeStep, hdelta]
  change (if 0 < d then (seconds sample.1 x0 >>= _) else _) = _
  rw [if_pos hd, hx]
  rfl

/-- Anything else is left out. -/
theorem derivativeStep_of_nonpos {s : Number × List (Float × ℤ)} {sample : Sample} {d : ℤ}
    (hdelta : delta sample.2 s.1 = .ok d) (hd : d ≤ 0) :
    derivativeStep x0 s sample = .ok (sample.2, s.2) := by
  rw [derivativeStep, hdelta]
  change (if 0 < d then (seconds sample.1 x0 >>= _) else _) = _
  rw [if_neg (not_lt.mpr hd)]
  rfl

/-- The loop over the samples that follow `s`. -/
theorem foldlM_derivativeStep (s : CounterSample) (samples : List CounterSample)
    (hchain : (s :: samples).IsChain CounterSample.ExactStep)
    (htimes : ∀ rise ∈ rises ((s :: samples).map CounterSample.timed),
      ∃ x, seconds rise.1 x0 = .ok x)
    (points : List (Float × ℤ)) :
    ∃ last points', (samples.map CounterSample.sample).foldlM (derivativeStep x0)
        (s.count, points) = .ok (last, points ++ points') ∧
      List.Forall₂ (IsPoint x0) (rises ((s :: samples).map CounterSample.timed)) points' := by
  induction samples generalizing s points with
  | nil => exact ⟨s.count, [], by rw [List.append_nil]; rfl, .nil⟩
  | cons s' samples ih =>
    obtain ⟨hstep, hrest⟩ := List.isChain_cons_cons.mp hchain
    obtain ⟨d, hdelta, hrise, hfall⟩ := exists_delta hstep
    rw [List.map_cons, List.map_cons] at htimes ⊢
    rw [List.map_cons, List.foldlM_cons]
    by_cases hlt : s.value < s'.value
    · -- the sample is a rise, and its point is appended
      have hpos : 0 < s'.timed.2 - s.timed.2 := sub_pos.mpr hlt
      rw [rises_cons_cons_of_pos hpos] at htimes ⊢
      obtain ⟨x, hx⟩ := htimes _ List.mem_cons_self
      obtain ⟨last, points', hloop, hpoints⟩ := ih s' hrest
        (fun rise hr => htimes rise (List.mem_cons_of_mem _ hr)) (points ++ [(x, d)])
      have hd : 0 < d := by
        rw [hrise hlt]
        exact hpos
      refine ⟨last, (x, d) :: points', ?_, .cons ⟨hx, hrise hlt⟩ hpoints⟩
      rw [List.append_assoc, List.singleton_append] at hloop
      rw [derivativeStep_of_pos hdelta hd hx]
      exact hloop
    · have hle : s'.value ≤ s.value := not_lt.mp hlt
      have hnonpos : s'.timed.2 - s.timed.2 ≤ 0 := sub_nonpos.mpr hle
      rw [rises_cons_cons_of_nonpos hnonpos] at htimes ⊢
      obtain ⟨last, points', hloop, hpoints⟩ := ih s' hrest htimes points
      refine ⟨last, points', ?_, hpoints⟩
      rw [derivativeStep_of_nonpos hdelta (hfall hle)]
      exact hloop

/-- The points have the rises as their values. -/
theorem map_snd_points {rs : List (Number × ℤ)} {points : List (Float × ℤ)}
    (h : List.Forall₂ (IsPoint x0) rs points) : points.map Prod.snd = rs.map Prod.snd := by
  induction h with
  | nil => rfl
  | cons hpoint _ ih => rw [List.map_cons, List.map_cons, hpoint.2, ih]

end Loop

/-- The deltas of a counter are its rises: all are positive, each has the time of its rise in order,
and they sum up to the total of the positive increments, which for a counter that does not decrease
is its last value minus its first. -/
def Conserves (samples : List CounterSample) (x0 : Number) : Prop :=
  ∃ points, discreteDerivative (samples.map CounterSample.sample) x0 = .ok points ∧
    (∀ point ∈ points, 0 < point.2) ∧
    List.Forall₂ (IsPoint x0) (rises (samples.map CounterSample.timed)) points ∧
    (points.map Prod.snd).sum =
      ((increments (samples.map CounterSample.value)).filter fun d => 0 < d).sum ∧
    ∀ hne : samples ≠ [], (samples.map CounterSample.value).IsChain (· ≤ ·) →
      (points.map Prod.snd).sum = (samples.getLast hne).value - (samples.head hne).value

/-- Where the differences are exact, the sum of the derivative is what the counter gained. -/
theorem conserves {samples : List CounterSample} {x0 : Number} (hne : samples ≠ [])
    (hchain : samples.IsChain CounterSample.ExactStep)
    (htimes : ∀ rise ∈ rises (samples.map CounterSample.timed), ∃ x, seconds rise.1 x0 = .ok x) :
    Conserves samples x0 := by
  cases samples with
  | nil => exact absurd rfl hne
  | cons first rest =>
    -- the loop starts with the first sample as if it were its own predecessor
    have hself : rises ((first :: first :: rest).map CounterSample.timed) =
        rises ((first :: rest).map CounterSample.timed) :=
      rises_cons_cons_of_nonpos (sub_self first.value).le
    obtain ⟨last, points, hloop, hpoints⟩ := foldlM_derivativeStep first (first :: rest)
      (List.isChain_cons_cons.mpr ⟨exactStep_self first, hchain⟩) (by rwa [hself]) []
    rw [hself] at hpoints
    have hdeltas : points.map Prod.snd =
        (rises ((first :: rest).map CounterSample.timed)).map Prod.snd := map_snd_points hpoints
    have hvalues : ((first :: rest).map CounterSample.timed).map Prod.snd =
        (first :: rest).map CounterSample.value := List.map_map
    refine ⟨points, ?_, fun point hpoint => ?_, hpoints, ?_, fun hne' hmono => ?_⟩
    · rw [List.map_cons, discreteDerivative]
      change ((List.map CounterSample.sample (first :: rest)).foldlM _ (first.count, []) >>= _) = _
      rw [hloop]
      rfl
    · have hmem : point.2 ∈ points.map Prod.snd := List.mem_map_of_mem hpoint
      rw [hdeltas] at hmem
      obtain ⟨rise, hrise, heq⟩ := List.mem_map.mp hmem
      rw [← heq]
      exact pos_of_mem_rises hrise
    · rw [hdeltas, map_snd_rises, hvalues]
    · rw [← hvalues] at hmono
      rw [hdeltas]
      refine (sum_rises_of_isChain hmono).trans ?_
      have hlast : ((first :: rest).map CounterSample.timed).getLast (by simp) =
          ((first :: rest).getLast hne').timed := List.getLast_map (by simp)
      exact congrArg (fun last => last.2 - first.value) hlast

/-- No sample of a log of well-formed lines is lost or doubled, and no rise of a counter is, as long
as the differences are not rounded and the times of the rises can be converted to `double`s. -/
theorem readKeyLog_discreteDerivative (D : Type → Type → Type) [FiniteMap D] :
    (∀ (content : List String) (nameLength : ℤ), (∀ line ∈ content, WellFormed line) →
      1 ≤ nameLength → ReadsGroups D content nameLength ∧
        ∀ name, ∃ suffix, suffix <:+ (name.toList.splitOn '.').map String.ofList ∧
          suffix.length = min nameLength.toNat (name.toList.splitOn '.').length ∧
          keyOf nameLength name = ".".intercalate suffix) ∧
    ∀ (samples : List CounterSample) (x0 : Number), samples ≠ [] →
      samples.IsChain CounterSample.ExactStep →
      (∀ rise ∈ rises (samples.map CounterSample.timed), ∃ x, seconds rise.1 x0 = .ok x) →
      Conserves samples x0 :=
  ⟨fun _ nameLength hcontent hpos => ⟨readsGroups D hcontent nameLength, exists_keyOf hpos⟩,
    fun _ _ hne hchain htimes => conserves hne hchain htimes⟩

/-- Two lines with one key, and three samples of a counter that is reset. -/
theorem readKeyLog_discreteDerivative_two :
    ReadsGroups AssocMap ["a.b\t3\t5\n", "c.b\t4\t6\n"] 1 ∧
      Conserves [⟨.long 0, .long 5, 5, rfl⟩, ⟨.long 1, .long 7, 7, rfl⟩, ⟨.long 2, .long 1, 1, rfl⟩]
        (.long 0) := by
  obtain ⟨hlog, hcounter⟩ := readKeyLog_discreteDerivative AssocMap
  refine ⟨(hlog _ 1 ?_ le_rfl).1, hcounter _ _ (by simp) ?_ ?_⟩
  · intro line hline
    rcases List.mem_pair.mp hline with rfl | rfl
    · exact ⟨"a.b", "3", "5", [], ofInt 3, 5, by decide, @float_repr 3 (by decide), by decide⟩
    · exact ⟨"c.b", "4", "6", [], ofInt 4, 6, by decide, @float_repr 4 (by decide), by decide⟩
  · exact .cons_cons trivial (.cons_cons trivial (.singleton _))
  · intro rise hrise
    obtain rfl : rise = (.long 1, 2) := by simpa [rises, CounterSample.timed] using hrise
    exact ⟨_, rfl⟩

/-- The difference of `2 ^ 53 + 2` and 1 is rounded to `2 ^ 53`, and the time of a rise may be too
large for a `double`. -/
theorem not_conserves :
    (∃ (h : IsValue (1 : ℤ) (ofInt 1))
        (h' : IsValue (9007199254740994 : ℤ) (ofInt 9007199254740994)),
      ¬Conserves [⟨.long 0, .float (ofInt 1), 1, h⟩,
        ⟨.long 1, .float (ofInt 9007199254740994), 9007199254740994, h'⟩] (.long 0)) ∧
    ¬Conserves [⟨.long 0, .long 0, 0, rfl⟩, ⟨.long (10 ^ 400), .long 1, 1, rfl⟩] (.long 0) := by
  have hlarge : Representable |((9007199254740994 : ℤ) : ℚ)| :=
    ⟨4503599627370497, 1, by norm_num, by norm_num, by norm_num⟩
  refine ⟨⟨isValue_ofInt (representable_abs (by decide)) (abs_le_largest (by decide)),
    isValue_ofInt hlarge (abs_le_largest (by decide)), ?_⟩, ?_⟩
  · rintro ⟨points, hpoints, -, -, hsum, -⟩
    have hdeltas : Except.ok [9007199254740992] = Except.ok (points.map Prod.snd) :=
      congrArg (Except.map (List.map Prod.snd)) hpoints
    rw [← Except.ok.inj hdeltas] at hsum
    have hequal : (9007199254740992 : ℤ) = 9007199254740993 := hsum
    exact absurd hequal (by decide)
  · have hinfinite : (ofInt (10 ^ 400)).isFinite = false := by decide +kernel
    generalize (10 : ℤ) ^ 400 = t at hinfinite ⊢
    rintro ⟨points, hpoints, -⟩
    have htime : seconds (.long t) (.long 0) = .error .overflowError := by
      change (Number.toDouble (.long (t - 0)) >>= _) = _
      rw [sub_zero, Number.toDouble, hinfinite]
      rfl
    have herror : discreteDerivative [(.long 0, .long 0), (.long t, .long 1)] (.long 0) =
        .error .overflowError := by
      change ((seconds (.long t) (.long 0) >>= _) >>= _) >>= _ = _
      rw [htime]
      rfl
    rw [List.map_cons, List.map_cons, List.map_nil] at hpoints
    cases herror.symm.trans hpoints

end JmxLogReader
