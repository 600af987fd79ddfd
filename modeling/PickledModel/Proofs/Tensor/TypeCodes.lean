import Mathlib.Algebra.Ring.Int.Defs
import Mathlib.Algebra.Ring.Nat
import PickledModel.Object.Descriptor
import PickledModel.Proofs.Bytes.Arithmetic

/-! Type codes in 64-bit words. A code is resolved to the name of a type and the
bytes of its elements, a record by way of its bits, with each operation refused if
it overflows. The name reads back as the type that the code stands for, and its
elements take just those bytes. -/

set_option autoImplicit false

namespace PickledModel

namespace Word

def shift? (n : UInt64) (d : Char) : Option UInt64 := do
  add? (← mul? n 10) (UInt64.ofNat (Text.digitValue d))

def ofDigits? (n : UInt64) : List Char → Option UInt64
  | [] => some n
  | d :: ds => do ofDigits? (← shift? n d) ds

def digits? (cs : List Char) : Option UInt64 :=
  if Text.isDigits cs then ofDigits? 0 cs else none

def read? : List Char → Option UInt64
  | '+' :: cs => digits? cs
  | cs => digits? cs

theorem digitValue_lt_ten {d : Char} (h : d.isDigit = true) : Text.digitValue d < 10 := by
  rw [Char.isDigit, Bool.and_eq_true, decide_eq_true_eq, decide_eq_true_eq] at h
  have hle : d.toNat ≤ '9'.toNat := UInt32.le_iff_toNat_le.mp h.2
  rw [Text.digitValue]
  change d.toNat ≤ 57 at hle
  change d.toNat - 48 < 10
  omega

theorem shift?_cases (n : UInt64) {d : Char} (h : d.isDigit = true) :
    (∃ w, shift? n d = some w ∧ w.toNat = 10 * n.toNat + Text.digitValue d) ∨
      shift? n d = none ∧ 2 ^ 64 ≤ 10 * n.toNat + Text.digitValue d := by
  have hten : (10 : UInt64).toNat = 10 := rfl
  have hdigit : (UInt64.ofNat (Text.digitValue d)).toNat = Text.digitValue d := by
    have := digitValue_lt_ten h
    exact UInt64.toNat_ofNat_of_lt' (by rw [UInt64.size]; omega)
  rw [shift?]
  rcases mul?_cases n 10 with ⟨tens, hmul, htens⟩ | ⟨hmul, htens⟩ <;> rw [hten] at htens <;>
    rw [hmul]
  · have hadd := add?_cases tens (UInt64.ofNat (Text.digitValue d))
    rw [hdigit, htens, Nat.mul_comm] at hadd
    exact hadd
  · exact .inr ⟨rfl, by omega⟩

theorem valueBelow?_of_le {limit n : Nat} (h : limit ≤ n) (ds : List Char) :
    Text.valueBelow? limit n ds = none := by
  cases ds with
  | nil => exact if_neg (Nat.not_lt.mpr h)
  | cons d ds => exact if_neg (Nat.not_lt.mpr h)

/-- Digits are read as their number, and refused once that is no word. -/
theorem toNat_ofDigits? (n : UInt64) {ds : List Char} (h : ∀ d ∈ ds, d.isDigit = true) :
    (ofDigits? n ds).map UInt64.toNat = Text.valueBelow? (2 ^ 64) n.toNat ds := by
  induction ds generalizing n with
  | nil => exact (if_pos n.toNat_lt).symm
  | cons d ds ih =>
    obtain ⟨hd, hds⟩ := List.forall_mem_cons.mp h
    rw [ofDigits?, Text.valueBelow?, if_pos n.toNat_lt]
    rcases shift?_cases n hd with ⟨w, hshift, hw⟩ | ⟨hshift, hlarge⟩ <;> rw [hshift]
    · rw [← hw]
      exact ih w hds
    · rw [valueBelow?_of_le hlarge]
      rfl

theorem toNat_digits? (cs : List Char) :
    (digits? cs).map UInt64.toNat = Text.digits? (2 ^ 64) cs := by
  rw [digits?, Text.digits?]
  by_cases h : Text.isDigits cs = true
  · rw [if_pos h, if_pos h]
    rw [Text.isDigits, Bool.and_eq_true, List.all_eq_true] at h
    exact toNat_ofDigits? 0 h.2
  · rw [if_neg h, if_neg h]
    rfl

/-- A width is read without overflow. -/
theorem toNat_read? (cs : List Char) :
    (read? cs).map UInt64.toNat = ElementType.width? cs := by
  cases cs with
  | nil => rfl
  | cons c cs =>
    by_cases h : c = '+'
    · subst h
      exact toNat_digits? cs
    · have hread : read? (c :: cs) = digits? (c :: cs) := by
        rw [read?]
        simpa using h
      have hwidth : ElementType.width? (c :: cs) = Text.digits? (2 ^ 64) (c :: cs) := by
        rw [ElementType.width?, Text.natural?]
        simpa using h
      rw [hread, hwidth, toNat_digits?]

end Word

namespace ElementType

def Fits : ElementType → Prop
  | .void bits => bits < 2 ^ 64
  | _ => True

/-- A type reads back from its name. -/
theorem ofName?_name {t : ElementType} (h : t.Fits) : ofName? t.name = some t := by
  cases t with
  | void bits =>
    have hdigits :
        (name (.void bits)).toList = 'v' :: 'o' :: 'i' :: 'd' :: Nat.toDigits 10 bits := by
      simp [name]
    have hwidth : width? (Nat.toDigits 10 bits) = some bits := Text.natural?_toDigits h
    unfold ofName?
    split
    case h_7 =>
      rw [hdigits]
      change (width? _).map void = _
      rw [hwidth, Option.map_some]
    all_goals
      next heq =>
        rw [heq] at hdigits
        simp at hdigits
  | _ => rfl

/-- A record type that a code stands for has eight bits for each byte that the code writes. -/
theorem ofCode?_record {ds : List Char} (code : String) (h : code.toList = 'V' :: ds) :
    ofCode? code = ((width? ds).filter (8 * · < 2 ^ 64)).map fun n => void (8 * n) := by
  unfold ofCode?
  split
  case h_5 =>
    rw [h]
    rfl
  all_goals simp at h

theorem ofCode?_fits {code : String} {t : ElementType} (h : ofCode? code = some t) : t.Fits := by
  unfold ofCode? at h
  split at h
  case h_5 =>
    split at h
    · obtain ⟨n, hn, rfl⟩ := Option.map_eq_some_iff.mp h
      have hbits := of_decide_eq_true (Option.filter_eq_some_iff.mp hn).2
      exact hbits
    · cases h
  all_goals
    cases h
    trivial

/-- A width is what its digits write, with or without a plus sign, if that is a word. -/
theorem width?_signed {sign ds : List Char} (hsign : sign = [] ∨ sign = ['+'])
    (hds : Text.isDigits ds = true) :
    width? (sign ++ ds) =
      if Text.decimalValue ds < 2 ^ 64 then some (Text.decimalValue ds) else none := by
  have hdigits : Text.digits? (2 ^ 64) ds =
      if Text.decimalValue ds < 2 ^ 64 then some (Text.decimalValue ds) else none := by
    rw [Text.digits?, if_pos hds, Text.valueBelow?_eq]
    rfl
  rw [← hdigits]
  rcases hsign with rfl | rfl
  · rw [List.nil_append, width?, Text.natural?.eq_def]
    split
    · rw [Text.isDigits] at hds
      simp at hds
    · rfl
  · rfl

end ElementType

namespace TypeCode
open ElementType

def resolve? (code : String) : Option (String × UInt64) :=
  match code with
  | "i4" => some ("int32", 4)
  | "i8" => some ("int64", 8)
  | "f4" => some ("float32", 4)
  | "f8" => some ("float64", 8)
  | _ => match code.toList with
    | 'V' :: ds => do
      let size ← Word.read? ds
      let bits ← Word.mul? size 8
      return ("void" ++ toString bits.toNat, size)
    | _ => none

theorem resolve?_record {ds : List Char} (code : String) (h : code.toList = 'V' :: ds) :
    resolve? code = do
      let size ← Word.read? ds
      let bits ← Word.mul? size 8
      return ("void" ++ toString bits.toNat, size) := by
  unfold resolve?
  split
  case h_5 =>
    rw [h]
    rfl
  all_goals simp at h

/-- The bits of a record are eight for each byte, or the code is refused. -/
theorem resolve?_record_eq {ds : List Char} (code : String) (h : code.toList = 'V' :: ds) :
    (resolve? code).map (fun r => (r.1, r.2.toNat)) =
      (ofCode? code).map fun t => (t.name, t.itemSize) := by
  rw [resolve?_record code h, ofCode?_record code h, ← Word.toNat_read?]
  cases Word.read? ds with
  | none => rfl
  | some size =>
    have height : (8 : UInt64).toNat = 8 := rfl
    rw [Option.bind_eq_bind, Option.bind_some, Option.map_some]
    rcases Word.mul?_cases size 8 with ⟨bits, hmul, hbits⟩ | ⟨hmul, hlarge⟩ <;> rw [hmul]
    · have hword := bits.toNat_lt
      rw [hbits, height, Nat.mul_comm] at hword
      rw [Option.filter_some, if_pos (decide_eq_true hword)]
      change some ("void" ++ toString bits.toNat, size.toNat) =
        some ("void" ++ toString (8 * size.toNat), (void (8 * size.toNat)).itemSize)
      rw [hbits, height, Nat.mul_comm, itemSize_void]
    · rw [height, Nat.mul_comm] at hlarge
      rw [Option.filter_some, if_neg (by simpa using hlarge)]
      rfl

/-- A code is resolved to the name of the type that it stands for and the bytes of its elements. -/
theorem resolve?_eq (code : String) :
    (resolve? code).map (fun r => (r.1, r.2.toNat)) =
      (ofCode? code).map fun t => (t.name, t.itemSize) := by
  by_cases h : ∃ ds, code.toList = 'V' :: ds
  · obtain ⟨ds, hds⟩ := h
    exact resolve?_record_eq code hds
  · -- neither knows a code of another form, apart from the four that both list
    unfold resolve? ofCode?
    split
    case h_5 =>
      split
      · next ds hds => exact absurd ⟨ds, hds⟩ h
      · simp
    all_goals rfl

theorem resolve?_eq_map (code : String) :
    resolve? code = (ofCode? code).map fun t => (t.name, UInt64.ofNat t.itemSize) := by
  have heq := congrArg (Option.map fun r => (r.1, UInt64.ofNat r.2)) (resolve?_eq code)
  simpa only [Option.map_map, Function.comp_def, UInt64.ofNat_toNat, Option.map_id_fun',
    id_eq] using heq

/-- The name and the bytes that a code is resolved to belong to one type, whose name reads back
as that type. The number behind the letter of a record code may be any; it is read exactly and so
are its bits, or the code is refused since they do not fit into a word. -/
theorem resolve?_agrees :
    (∀ code name size, resolve? code = some (name, size) →
      ∃ t, Descriptor.resolve code = .ok t ∧ ofName? name = some t ∧ t.itemSize = size.toNat ∧
        t.name = name) ∧
      (∀ code, resolve? code = none →
        Descriptor.resolve code = .error (.unknownElementType code)) ∧
      (∀ cs, (Word.read? cs).map UInt64.toNat = width? cs) ∧
      ∀ sign ds, sign = [] ∨ sign = ['+'] → Text.isDigits ds = true →
        resolve? (String.ofList ('V' :: (sign ++ ds))) =
          if 8 * Text.decimalValue ds < 2 ^ 64 then
            some ("void" ++ toString (8 * Text.decimalValue ds),
              UInt64.ofNat (Text.decimalValue ds))
          else none := by
  refine ⟨fun code name size h => ?_, fun code h => ?_, Word.toNat_read?,
    fun sign ds hsign hds => ?_⟩
  · have heq := resolve?_eq code
    rw [h, Option.map_some] at heq
    obtain ⟨t, ht, hpair⟩ := Option.map_eq_some_iff.mp heq.symm
    obtain ⟨hname, hsize⟩ := Prod.mk.inj hpair
    have hread := ofName?_name (ofCode?_fits ht)
    rw [hname] at hread
    exact ⟨t, by rw [Descriptor.resolve, ht], hread, hsize, hname⟩
  · have heq := resolve?_eq code
    rw [h, Option.map_none] at heq
    rw [Descriptor.resolve, Option.map_eq_none_iff.mp heq.symm]
  · have hcode : (String.ofList ('V' :: (sign ++ ds))).toList = 'V' :: (sign ++ ds) :=
      String.toList_ofList
    rw [resolve?_eq_map, ofCode?_record _ hcode, width?_signed hsign hds]
    by_cases hbits : 8 * Text.decimalValue ds < 2 ^ 64
    · rw [if_pos hbits, if_pos (by omega), Option.filter_some, if_pos (decide_eq_true hbits),
        Option.map_some, Option.map_some, itemSize_void]
      rfl
    · rw [if_neg hbits]
      by_cases hbytes : Text.decimalValue ds < 2 ^ 64
      · rw [if_pos hbytes, Option.filter_some, if_neg (by simpa using hbits)]
        rfl
      · rw [if_neg hbytes]
        rfl

/-- A sign and leading zeros leave no trace in the name. -/
theorem resolve?_agrees_signed :
    resolve? "V+0016" = some ("void128", 16) ∧ ofName? "void128" = some (.void 128) ∧
      (void 128).itemSize = (16 : UInt64).toNat ∧ resolve? "V2305843009213693952" = none := by
  obtain ⟨hagrees, -, -, hrecords⟩ := resolve?_agrees
  have hsigned : resolve? "V+0016" = some ("void128", 16) :=
    (hrecords ['+'] ['0', '0', '1', '6'] (.inr rfl) rfl).trans (by decide)
  have hlarge : resolve? "V2305843009213693952" = none :=
    (hrecords [] "2305843009213693952".toList (.inl rfl) (by decide)).trans (by decide)
  obtain ⟨t, -, hread, hsize, -⟩ := hagrees _ _ _ hsigned
  have ht : t = .void 128 := by
    have hvoid : ofName? "void128" = some (.void 128) := by decide
    exact Option.some.inj (hread.symm.trans hvoid)
  rw [ht] at hread hsize
  exact ⟨hsigned, hread, hsize, hlarge⟩

end TypeCode

end PickledModel
