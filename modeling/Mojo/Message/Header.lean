import Mojo.CBindings.Validate
import Mojo.CppBindings.ValidateClaims

/-!
# Message headers in the C and in the C++ bindings

A message starts with a struct of 16 bytes, or of 24 if it has a request id. Both
languages first check this struct as such and then the flags against the role in
which the message was received. The checks are written in another order, and the
C++ code claims the struct from a `BoundsChecker`. The verdicts are the same.
-/

namespace Mojo.Message

open Mojo.Memory

inductive Role
  | requestExpectingResponse
  | requestWithoutResponse
  | response
deriving DecidableEq, Repr

def messageSize : ℕ := 16

/-- `sizeof(struct MojomMessageWithRequestId)` and `sizeof(MessageHeaderWithRequestID)`. -/
def messageWithRequestIdSize : ℕ := 24

def expectsResponse : ℕ := 1

def isResponse : ℕ := 2

end Mojo.Message

namespace Mojo.CBindings

open Mojo.Memory Mojo.Message

def ValidationResult.code : ValidationResult → ℕ
  | .errorNone => 0
  | .misalignedObject => 1
  | .illegalMemoryRange => 2
  | .unexpectedStructHeader => 3
  | .unexpectedArrayHeader => 4
  | .illegalHandle => 5
  | .unexpectedInvalidHandle => 6
  | .illegalPointer => 7
  | .unexpectedNullPointer => 8
  | .messageHeaderInvalidFlags => 9
  | .messageHeaderMissingRequestId => 10
  | .messageHeaderUnknownMethod => 11
  | .differentSizedArraysInMap => 12
  | .unexpectedNullUnion => 13

def fetchFlags (m : Mem) (inBuf : ℕ) : Traced Event ℕ := fetch m (inBuf + 12) 4

/-- The end of `MojomMessage_ValidateHeader`, after the size has been checked. -/
def messageValidateExclusive (m : Mem) (inBuf : ℕ) : Traced Event ValidationResult := do
  let flags ← fetchFlags m inBuf
  if flags &&& expectsResponse ≠ 0 ∧ flags &&& isResponse ≠ 0 then
    pure .messageHeaderInvalidFlags
  else
    pure .errorNone

def messageValidateHeader (m : Mem) (inBuf inBufSize : ℕ) : Traced Event ValidationResult :=
  if inBufSize < headerSize then pure .illegalMemoryRange
  else do
    let numBytes ← fetch m inBuf 4
    if inBufSize < numBytes then pure .illegalMemoryRange
    else
      let version ← fetch m (inBuf + 4) 4
      if version = 0 then
        if numBytes ≠ messageSize then pure .unexpectedStructHeader
        else
          let flags ← fetchFlags m inBuf
          if flags &&& expectsResponse ≠ 0 ∨ flags &&& isResponse ≠ 0 then
            pure .messageHeaderMissingRequestId
          else
            messageValidateExclusive m inBuf
      else if version = 1 then
        if numBytes ≠ messageWithRequestIdSize then pure .unexpectedStructHeader
        else messageValidateExclusive m inBuf
      else
        if numBytes < messageWithRequestIdSize then pure .unexpectedStructHeader
        else messageValidateExclusive m inBuf

def messageValidateRequestExpectingResponse (m : Mem) (inBuf : ℕ) :
    Traced Event ValidationResult := do
  let flags ← fetchFlags m inBuf
  pure (if flags &&& expectsResponse ≠ 0 then .errorNone else .messageHeaderInvalidFlags)

def messageValidateRequestWithoutResponse (m : Mem) (inBuf : ℕ) :
    Traced Event ValidationResult := do
  let flags ← fetchFlags m inBuf
  pure (if ¬ flags &&& expectsResponse ≠ 0 ∧ ¬ flags &&& isResponse ≠ 0 then
    .errorNone else .messageHeaderInvalidFlags)

def messageValidateResponse (m : Mem) (inBuf : ℕ) : Traced Event ValidationResult := do
  let flags ← fetchFlags m inBuf
  pure (if flags &&& isResponse ≠ 0 then .errorNone else .messageHeaderInvalidFlags)

def messageValidateRole : Role → Mem → ℕ → Traced Event ValidationResult
  | .requestExpectingResponse => messageValidateRequestExpectingResponse
  | .requestWithoutResponse => messageValidateRequestWithoutResponse
  | .response => messageValidateResponse

def messageValidate (role : Role) (m : Mem) (inBuf inBufSize : ℕ) :
    Traced Event ValidationResult := do
  let result ← messageValidateHeader m inBuf inBufSize
  if result ≠ .errorNone then pure result else messageValidateRole role m inBuf

end Mojo.CBindings

namespace Mojo.CppBindings

open Mojo.Memory Mojo.Message

def ValidationError.code : ValidationError → ℕ
  | .misalignedObject => 1
  | .illegalMemoryRange => 2
  | .unexpectedStructHeader => 3
  | .unexpectedArrayHeader => 4
  | .illegalHandle => 5
  | .unexpectedInvalidHandle => 6
  | .illegalPointer => 7
  | .unexpectedNullPointer => 8
  | .messageHeaderInvalidFlags => 9
  | .messageHeaderMissingRequestId => 10
  | .messageHeaderUnknownMethod => 11
  | .differentSizedArraysInMap => 12
  | .unexpectedNullUnion => 13

def fetch (m : Mem) (addr len : ℕ) : Traced Extent ℕ := ⟨[⟨addr, len⟩], some (load m addr len)⟩

@[simp] theorem value_fetch (m : Mem) (addr len : ℕ) :
    (fetch m addr len).value = some (load m addr len) := rfl

@[simp] theorem logs_fetch (P : Extent → Prop) (m : Mem) (addr len : ℕ) :
    (fetch m addr len).Logs P ↔ P ⟨addr, len⟩ := by
  simp [Traced.Logs, fetch]

abbrev HeaderVerdict := Traced Extent (Except Failure Unit)

def fail (error : ValidationError) : HeaderVerdict := pure (.error (.invalid error))

def structHeaderReads (m : Mem) (data : ℕ) (bc : BoundsChecker) :
    Traced Extent (Except Failure BoundsChecker) :=
  if data % 8 ≠ 0 then pure (.error (.invalid .misalignedObject))
  else if ¬ bc.isValidRange data headerSize then pure (.error (.invalid .illegalMemoryRange))
  else do
    let numBytes ← fetch m data 4
    if numBytes < headerSize then pure (.error (.invalid .unexpectedStructHeader))
    else pure (bc.claimMemory data numBytes)

theorem value_structHeaderReads (m : Mem) (data : ℕ) (bc : BoundsChecker) :
    (structHeaderReads m data bc).value = some (validateStructHeaderAndClaimMemory m data bc) := by
  simp only [structHeaderReads, validateStructHeaderAndClaimMemory, Traced.value_ite,
    Traced.value_bind, value_fetch, Traced.value_pure, Option.bind_some]
  split_ifs <;> rfl

def hasFlag (m : Mem) (data flag : ℕ) : Traced Extent Bool := do
  let flags ← fetch m (data + 12) 4
  pure (flags &&& flag ≠ 0)

def messageSizeOk (version numBytes : ℕ) : Prop :=
  if version = 0 then numBytes = messageSize
  else if version = 1 then numBytes = messageWithRequestIdSize
  else messageWithRequestIdSize ≤ numBytes

instance (version numBytes : ℕ) : Decidable (messageSizeOk version numBytes) := by
  unfold messageSizeOk
  infer_instance

def validateMessageHeader (m : Mem) (data : ℕ) : HeaderVerdict := do
  let version ← fetch m (data + 4) 4
  let numBytes ← fetch m data 4
  if ¬ messageSizeOk version numBytes then fail .unexpectedStructHeader
  else
    let expects ← hasFlag m data expectsResponse
    let is ← hasFlag m data isResponse
    if version < 1 ∧ (expects ∨ is) then fail .messageHeaderMissingRequestId
    else if expects ∧ is then fail .messageHeaderInvalidFlags
    else pure (.ok ())

def messageHeaderValidatorValidate (m : Mem) (data dataNumBytes : ℕ) : HeaderVerdict := do
  let result ← structHeaderReads m data (.new data dataNumBytes 0)
  match result with
  | .error failure => pure (.error failure)
  | .ok _ => validateMessageHeader m data

def validateMessageIsRequestWithoutResponse (m : Mem) (data : ℕ) : HeaderVerdict := do
  let is ← hasFlag m data isResponse
  if is then fail .messageHeaderInvalidFlags
  else
    let expects ← hasFlag m data expectsResponse
    if expects then fail .messageHeaderInvalidFlags else pure (.ok ())

def validateMessageIsRequestExpectingResponse (m : Mem) (data : ℕ) : HeaderVerdict := do
  let is ← hasFlag m data isResponse
  if is then fail .messageHeaderInvalidFlags
  else
    let expects ← hasFlag m data expectsResponse
    if !expects then fail .messageHeaderInvalidFlags else pure (.ok ())

def validateMessageIsResponse (m : Mem) (data : ℕ) : HeaderVerdict := do
  let expects ← hasFlag m data expectsResponse
  if expects then fail .messageHeaderInvalidFlags
  else
    let is ← hasFlag m data isResponse
    if !is then fail .messageHeaderInvalidFlags else pure (.ok ())

def validateMessageIs : Role → Mem → ℕ → HeaderVerdict
  | .requestExpectingResponse => validateMessageIsRequestExpectingResponse
  | .requestWithoutResponse => validateMessageIsRequestWithoutResponse
  | .response => validateMessageIsResponse

def messageValidate (role : Role) (m : Mem) (data dataNumBytes : ℕ) : HeaderVerdict := do
  let result ← messageHeaderValidatorValidate m data dataNumBytes
  match result with
  | .error failure => pure (.error failure)
  | .ok _ => validateMessageIs role m data

end Mojo.CppBindings

namespace Mojo.Message

open Mojo.Memory

def SameVerdict (result : CBindings.ValidationResult) : Except CppBindings.Failure Unit → Prop
  | .ok () => result.code = 0
  | .error (.invalid error) => result.code = error.code
  | .error .crash | .error .fuel => False

variable {result : CBindings.ValidationResult}

theorem SameVerdict.eq_none {u : Unit}
    (h : SameVerdict result (.ok u)) : result = .errorNone := by
  cases result <;> first | rfl | cases h

theorem SameVerdict.ne_none {failure : CppBindings.Failure}
    (h : SameVerdict result (.error failure)) : result ≠ .errorNone := by
  rintro rfl
  cases failure with
  | invalid error => cases error <;> cases h
  | crash | fuel => exact h

def ReadInside (base len addr n : ℕ) : Prop := base ≤ addr ∧ addr + n ≤ base + len

def CReadInside (base len : ℕ) : CBindings.Event → Prop
  | .read addr n => ReadInside base len addr n
  | .rest _ _ | .follow _ _ _ _ => True

theorem isValidRange_new {base len n : ℕ} (hfit : base + len < 2 ^ 64) (hn : n < 2 ^ 32) :
    (CppBindings.BoundsChecker.new base len 0).isValidRange base n ↔ 0 < n ∧ n ≤ len := by
  have hend : (CppBindings.BoundsChecker.new base len 0).dataEnd = base + len := by
    simp only [CppBindings.BoundsChecker.new, wrap64_of_lt hfit]
    split_ifs <;> omega
  constructor
  · intro h
    have hs := h.stop (by omega)
    obtain ⟨h₁, -, h₃⟩ := h
    rw [hend] at h₃
    omega
  · rintro ⟨h₁, h₂⟩
    have hs : wrap64 (base + n) = base + n := wrap64_of_lt (by omega)
    refine ⟨?_, le_rfl, ?_⟩ <;> rw [hs]
    · omega
    · rw [hend]
      omega

/-- The verdict on a header of `numBytes` bytes, of which `len` were received. -/
def headerResult (len numBytes version flags : ℕ) : CBindings.ValidationResult :=
  if len < 8 ∨ len < numBytes then .illegalMemoryRange
  else if ¬ CppBindings.messageSizeOk version numBytes then .unexpectedStructHeader
  else if version = 0 ∧ (flags &&& expectsResponse ≠ 0 ∨ flags &&& isResponse ≠ 0) then
    .messageHeaderMissingRequestId
  else if flags &&& expectsResponse ≠ 0 ∧ flags &&& isResponse ≠ 0 then .messageHeaderInvalidFlags
  else .errorNone

section

variable {m : Mem} {base len : ℕ}

variable {version numBytes : ℕ}

theorem messageSizeOk_ge (h : CppBindings.messageSizeOk version numBytes) : 16 ≤ numBytes := by
  simp only [CppBindings.messageSizeOk, messageSize, messageWithRequestIdSize] at h
  split_ifs at h <;> omega

theorem value_c_header : (CBindings.messageValidateHeader m base len).value =
    some (headerResult len (load m base 4) (load m (base + 4) 4) (load m (base + 12) 4)) := by
  simp only [CBindings.messageValidateHeader, CBindings.messageValidateExclusive,
    CBindings.fetchFlags, Traced.value_ite, Traced.value_bind, CBindings.value_fetch,
    Traced.value_pure, Option.bind_some]
  simp only [headerResult, CppBindings.messageSizeOk, CBindings.headerSize]
  by_cases hlen : len < 8
  · simp [hlen]
  by_cases hsize : len < load m base 4
  · simp [hlen, hsize]
  by_cases h₀ : load m (base + 4) 4 = 0
  · simp only [hlen, hsize, h₀, or_self, ↓reduceIte, true_and, ne_eq, ite_not]
    split_ifs <;> rfl
  by_cases h₁ : load m (base + 4) 4 = 1
  · simp only [hlen, hsize, h₁, or_self, ↓reduceIte, one_ne_zero, false_and, ne_eq, ite_not]
    split_ifs <;> rfl
  · simp only [hlen, hsize, h₀, h₁, or_self, ↓reduceIte, false_and, not_le]
    split_ifs <;> rfl

theorem value_hasFlag (data flag : ℕ) :
    (CppBindings.hasFlag m data flag).value =
      some (decide (load m (data + 12) 4 &&& flag ≠ 0)) := by
  simp [CppBindings.hasFlag, Traced.value_bind, CppBindings.value_fetch, Traced.value_pure]

theorem value_validateMessageHeader : (CppBindings.validateMessageHeader m base).value = some (
    if ¬ CppBindings.messageSizeOk (load m (base + 4) 4) (load m base 4) then
      .error (.invalid .unexpectedStructHeader)
    else if load m (base + 4) 4 = 0 ∧ (load m (base + 12) 4 &&& expectsResponse ≠ 0 ∨
        load m (base + 12) 4 &&& isResponse ≠ 0) then
      .error (.invalid .messageHeaderMissingRequestId)
    else if load m (base + 12) 4 &&& expectsResponse ≠ 0 ∧
      load m (base + 12) 4 &&& isResponse ≠ 0 then .error (.invalid .messageHeaderInvalidFlags)
    else .ok ()) := by
  simp only [CppBindings.validateMessageHeader, CppBindings.fail, Traced.value_ite,
    Traced.value_bind, CppBindings.value_fetch, Traced.value_pure, Option.bind_some,
    value_hasFlag, decide_eq_true_eq, Nat.lt_one_iff]
  split_ifs <;> rfl

theorem value_cpp_header (halign : base % 8 = 0) (hfit : base + len < 2 ^ 64) :
    ∃ verdict, (CppBindings.messageHeaderValidatorValidate m base len).value = some verdict ∧
      SameVerdict
        (headerResult len (load m base 4) (load m (base + 4) 4) (load m (base + 12) 4))
        verdict := by
  have hn : load m base 4 < 2 ^ 32 := load_lt m base 4
  have h8 := isValidRange_new (n := 8) hfit (by decide)
  have hall := isValidRange_new hfit hn
  simp only [CppBindings.messageHeaderValidatorValidate, Traced.value_bind,
    CppBindings.value_structHeaderReads, Option.bind_some,
    CppBindings.validateStructHeaderAndClaimMemory, CppBindings.BoundsChecker.claimMemory,
    CppBindings.headerSize, halign, ne_eq, not_true_eq_false, ↓reduceIte, h8, hall]
  by_cases hlen : len < 8
  · have h' : ¬ (0 < 8 ∧ 8 ≤ len) := by omega
    simp only [h', not_false_eq_true, ↓reduceIte, headerResult, hlen, true_or]
    exact ⟨_, rfl, rfl⟩
  have h' : 0 < 8 ∧ 8 ≤ len := by omega
  by_cases hhead : load m base 4 < 8
  · have hnot : ¬ CppBindings.messageSizeOk (load m (base + 4) 4) (load m base 4) := fun h => by
      have := messageSizeOk_ge h
      omega
    have hlt : ¬ len < load m base 4 := by omega
    simp only [h', hhead, ↓reduceIte, headerResult, hlen, hlt, or_self, hnot, not_false_eq_true]
    exact ⟨_, rfl, rfl⟩
  by_cases hsize : len < load m base 4
  · have hall' : ¬ (0 < load m base 4 ∧ load m base 4 ≤ len) := by omega
    simp only [h', hhead, hall', ↓reduceIte, headerResult, hsize, or_true]
    exact ⟨_, rfl, rfl⟩
  · have hall' : 0 < load m base 4 ∧ load m base 4 ≤ len := by omega
    simp only [h', not_true_eq_false, hhead, hall', and_self, ↓reduceIte, headerResult, hsize, hlen,
      or_self, value_validateMessageHeader]
    refine ⟨_, rfl, ?_⟩
    split_ifs <;> exact rfl

theorem headerResult_eq_none {flags : ℕ}
    (h : headerResult len numBytes version flags = .errorNone) :
    16 ≤ len ∧ ¬ (flags &&& expectsResponse ≠ 0 ∧ flags &&& isResponse ≠ 0) := by
  rw [headerResult] at h
  split_ifs at h with h₁ h₂ h₃ h₄
  have := messageSizeOk_ge h₂
  exact ⟨by omega, h₄⟩

theorem value_role (role : Role) (h : ¬ (load m (base + 12) 4 &&& expectsResponse ≠ 0 ∧
      load m (base + 12) 4 &&& isResponse ≠ 0)) :
    ∃ result verdict, (CBindings.messageValidateRole role m base).value = some result ∧
      (CppBindings.validateMessageIs role m base).value = some verdict ∧
      SameVerdict result verdict := by
  have hflags : (load m (base + 12) 4 &&& expectsResponse = 0 ∧
      load m (base + 12) 4 &&& isResponse = 0) ∨
      (load m (base + 12) 4 &&& expectsResponse = 0 ∧ load m (base + 12) 4 &&& isResponse ≠ 0) ∨
      (load m (base + 12) 4 &&& expectsResponse ≠ 0 ∧ load m (base + 12) 4 &&& isResponse = 0) := by
    tauto
  rcases hflags with ⟨hA, hB⟩ | ⟨hA, hB⟩ | ⟨hA, hB⟩
  all_goals cases role <;> simp [CBindings.messageValidateRole,
    CBindings.messageValidateRequestExpectingResponse,
        CBindings.messageValidateRequestWithoutResponse, CBindings.messageValidateResponse,
        CBindings.fetchFlags, CppBindings.validateMessageIs,
        CppBindings.validateMessageIsRequestExpectingResponse,
        CppBindings.validateMessageIsRequestWithoutResponse, CppBindings.validateMessageIsResponse,
        CppBindings.fail, value_hasFlag, hA, hB, SameVerdict,
        CBindings.ValidationResult.code, CppBindings.ValidationError.code]

theorem logs_c (role : Role) (m : Mem) (base len : ℕ) :
    (CBindings.messageValidate role m base len).Logs (CReadInside base len) := by
  have hrole : 16 ≤ len → (CBindings.messageValidateRole role m base).Logs (CReadInside base
      len) := by
    intro h16
    cases role <;> simp only [CBindings.messageValidateRole,
      CBindings.messageValidateRequestExpectingResponse,
        CBindings.messageValidateRequestWithoutResponse, CBindings.messageValidateResponse,
        CBindings.fetchFlags, Traced.logs_bind, CBindings.logs_fetch, CReadInside, ReadInside,
        Traced.logs_pure, implies_true, and_true] <;> omega
  have hexcl : 16 ≤ len → (CBindings.messageValidateExclusive m base).Logs (CReadInside base
      len) := by
    intro h16
    simp only [CBindings.messageValidateExclusive, CBindings.fetchFlags, Traced.logs_bind,
      Traced.logs_ite, CBindings.logs_fetch, CReadInside, ReadInside, Traced.logs_pure,
      implies_true, and_self, and_true]
    omega
  rw [CBindings.messageValidate, Traced.logs_bind]
  constructor
  · simp only [CBindings.messageValidateHeader, CBindings.fetchFlags, Traced.logs_ite,
      Traced.logs_bind, CBindings.logs_fetch, CBindings.value_fetch, Option.some.injEq, forall_eq',
      Traced.logs_pure, implies_true, true_and]
    simp only [CBindings.headerSize, messageSize, messageWithRequestIdSize, not_lt, ne_eq, not_not,
      CReadInside, ReadInside]
    intro hlen
    refine ⟨by omega, fun hsize => ⟨by omega, fun _ h16 => ⟨by omega, fun _ => hexcl (by omega)⟩,
      fun _ => ⟨fun _ h24 => hexcl (by omega), fun _ h24 => hexcl (by omega)⟩⟩⟩
  · intro result hresult
    rw [Traced.logs_ite]
    refine ⟨fun _ => Traced.logs_pure _, fun hnone => hrole ?_⟩
    rw [value_c_header, not_not.mp hnone] at hresult
    exact (headerResult_eq_none (Option.some.inj hresult)).1

theorem logs_hasFlag {P : Extent → Prop} (data flag : ℕ) :
    (CppBindings.hasFlag m data flag).Logs P ↔ P ⟨data + 12, 4⟩ := by
  simp [CppBindings.hasFlag, Traced.logs_bind, CppBindings.logs_fetch, Traced.logs_pure]

theorem logs_cpp (role : Role) (m : Mem) (halign : base % 8 = 0) (hfit : base + len < 2 ^ 64) :
    (CppBindings.messageValidate role m base len).Logs
      (fun e => ReadInside base len e.addr e.len) := by
  have hrole : 16 ≤ len → (CppBindings.validateMessageIs role m base).Logs
      (fun e => ReadInside base len e.addr e.len) := by
    intro h16
    have hflags : ReadInside base len (base + 12) 4 := ⟨by omega, by omega⟩
    cases role <;> simp [CppBindings.validateMessageIs,
      CppBindings.validateMessageIsRequestExpectingResponse,
      CppBindings.validateMessageIsRequestWithoutResponse, CppBindings.validateMessageIsResponse,
      CppBindings.fail, Traced.logs_bind, logs_hasFlag, Traced.logs_ite, Traced.logs_pure, hflags]
  have hheader : load m base 4 ≤ len → 8 ≤ len → (CppBindings.validateMessageHeader m base).Logs
      (fun e => ReadInside base len e.addr e.len) := by
    intro hsize h8
    simp only [CppBindings.validateMessageHeader, CppBindings.fail, Traced.logs_bind,
      Traced.logs_ite, CppBindings.logs_fetch, CppBindings.value_fetch, Option.some.injEq,
      forall_eq', Traced.logs_pure, implies_true, true_and, logs_hasFlag, and_true, not_not,
      ReadInside]
    refine ⟨by omega, by omega, fun hok => ?_⟩
    have := messageSizeOk_ge hok
    exact ⟨by omega, fun _ _ => by omega⟩
  have hnew := isValidRange_new (n := 8) hfit (by decide)
  rw [CppBindings.messageValidate, Traced.logs_bind]
  constructor
  · rw [CppBindings.messageHeaderValidatorValidate, Traced.logs_bind]
    constructor
    · simp only [CppBindings.structHeaderReads, Traced.logs_ite, Traced.logs_bind,
        CppBindings.logs_fetch, Traced.logs_pure, implies_true, true_and, and_true, not_not,
        ReadInside]
      intro _ hrange
      have := hnew.mp hrange
      omega
    · intro result hresult
      rw [CppBindings.value_structHeaderReads] at hresult
      cases hok : CppBindings.validateStructHeaderAndClaimMemory m base (.new base len 0) with
      | error failure =>
        rw [hok] at hresult
        cases hresult
        exact Traced.logs_pure _
      | ok bc =>
        rw [hok] at hresult
        cases hresult
        obtain ⟨h₁, -, h₃, -⟩ := CppBindings.validateStructHeader_eq_ok hok
        have hend := CppBindings.BoundsChecker.new_dataEnd_le base len 0
        simp only [CppBindings.headerSize] at h₁
        exact hheader (by omega) (by omega)
  · intro verdict hverdict
    obtain ⟨verdict', hcpp, hsame⟩ := value_cpp_header (m := m) halign hfit
    obtain rfl := Option.some.inj (hverdict.symm.trans hcpp)
    cases verdict with
    | error failure => exact Traced.logs_pure _
    | ok u => exact hrole (headerResult_eq_none hsame.eq_none).1

/-- The C and the C++ code come to the same verdict on every header in every role, and
neither reads past the message. -/
theorem header_verdicts_agree (role : Role) (m : Mem) (base len : ℕ) (halign : base % 8 = 0)
    (hfit : base + len < 2 ^ 64) :
    (∃ result verdict, (CBindings.messageValidate role m base len).value = some result ∧
      (CppBindings.messageValidate role m base len).value = some verdict ∧
      SameVerdict result verdict) ∧
    (CBindings.messageValidate role m base len).Logs (CReadInside base len) ∧
    (CppBindings.messageValidate role m base len).Logs
      (fun e => ReadInside base len e.addr e.len) := by
  refine ⟨?_, logs_c role m base len, logs_cpp role m halign hfit⟩
  obtain ⟨verdict, hcpp, hsame⟩ := value_cpp_header (m := m) halign hfit
  simp only [CBindings.messageValidate, CppBindings.messageValidate, Traced.value_bind, hcpp,
    value_c_header, Option.bind_some, Traced.value_ite, Traced.value_pure]
  cases verdict with
  | error failure =>
    have hne := hsame.ne_none
    rw [if_pos hne]
    exact ⟨_, _, rfl, rfl, hsame⟩
  | ok u =>
    have hnone := hsame.eq_none
    simp only [hnone, ne_eq, not_true_eq_false, ↓reduceIte]
    exact value_role role (headerResult_eq_none hnone).2

end

/-- A header that announces a response, with bits in its flags that nothing defines. -/
def responseHeader : Mem := block 64 (words [24, 1, 5, 2147483650, 9, 0])

theorem header_verdicts_agree_response : (∃ result verdict,
      (CBindings.messageValidate .response responseHeader 64 24).value = some result ∧
      (CppBindings.messageValidate .response responseHeader 64 24).value = some verdict ∧
      SameVerdict result verdict) ∧
    (CBindings.messageValidate .response responseHeader 64 24).Logs (CReadInside 64 24) ∧
    (CppBindings.messageValidate .response responseHeader 64 24).Logs
      (fun e => ReadInside 64 24 e.addr e.len) :=
  header_verdicts_agree .response responseHeader 64 24 (by decide) (by decide)

/-! ### The fields of the header that a message starts with -/

section Fields

variable (bytes : List UInt8)

def numBytes : ℕ := load (block 0 bytes) 0 4

def version : ℕ := load (block 0 bytes) 4 4

def name : ℕ := load (block 0 bytes) 8 4

def flags : ℕ := load (block 0 bytes) 12 4

def requestId : ℕ := load (block 0 bytes) 16 8

/-- The headers that the bindings themselves write. -/
def Standard : Prop :=
  version bytes = 0 ∧ flags bytes = 0 ∨ version bytes = 1 ∧ (flags bytes = 1 ∨ flags bytes = 2)

instance : Decidable (Standard bytes) := inferInstanceAs (Decidable (_ ∨ _))

end Fields

def request : List UInt8 :=
  words [24, 1, 5, 1, 9, 0]

def unflagged : List UInt8 :=
  words [24, 1, 5, 0, 9, 0]

end Mojo.Message
