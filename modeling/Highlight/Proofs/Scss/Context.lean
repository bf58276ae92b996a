import Highlight.Proofs.Document.Marks
import Highlight.Scss.Context

/-!
The line state of SCSS loses nothing of the contexts that colouring comes to.
-/

namespace Highlight.Scss

/--
The styles that a field of five bits holds next to nothing at all. Those of SCSS are among them.
-/
def Packable (style : Highlight.Style) : Prop :=
  style.toNat ≤ 30

instance (style : Highlight.Style) : Decidable (Packable style) :=
  inferInstanceAs (Decidable (style.toNat ≤ 30))

namespace Context

/--
The contexts that colouring comes to: their styles can be packed, and their operator is one of SCSS.
-/
structure Fits (context : Context) : Prop where
  lastStyle : ∀ style, context.lastStyle? = some style → Packable style
  beforeComment : ∀ style, context.beforeComment? = some style → Packable style
  beforeString : ∀ style, context.beforeString? = some style → Packable style
  operator : ∀ operator, context.operator? = some operator → operator.sign ∈ operators

theorem fits_empty : empty.Fits :=
  ⟨nofun, nofun, nofun, nofun⟩

theorem packStyle_lt (style? : Option Highlight.Style) : packStyle style? < 32 := by
  unfold packStyle
  split
  . exact LineState.saturate_lt _ 5
  . omega

theorem unpackStyle?_packStyle {style? : Option Highlight.Style} (h : ∀ style, style? = some style → Packable style) :
    unpackStyle? (packStyle style?) = style? := by
  cases style? with
  | none => rfl
  | some style =>
    have hstyle : style.toNat ≤ 30 := h style rfl
    have hlt : style.toNat + 1 < 1 <<< 5 := by
      rw [show 1 <<< 5 = 32 from rfl]
      omega
    rw [packStyle, LineState.saturate_of_lt hlt]
    exact congrArg some (UInt8.ofNat_toNat)

theorem unpackOperator?_packOperator {operator? : Option Operator}
    (h : ∀ operator, operator? = some operator → operator.sign ∈ operators) :
    packOperator operator? < 64 ∧ unpackOperator? (packOperator operator?) = operator? := by
  cases operator? with
  | none => exact ⟨by decide, rfl⟩
  | some operator =>
    obtain ⟨sign, afterColon⟩ := operator
    have hsign : sign ∈ operators := h _ rfl
    have hall : operators.all (fun sign => decide (packOperator (some ⟨sign, afterColon⟩) < 64
        ∧ unpackOperator? (packOperator (some ⟨sign, afterColon⟩)) = some ⟨sign, afterColon⟩)) = true := by
      cases afterColon <;> decide
    exact of_decide_eq_true (List.all_eq_true.mp hall sign hsign)

theorem unpack_pack {context : Context} (h : context.Fits) : unpack context.pack = context := by
  have hlast := unpackStyle?_packStyle h.lastStyle
  have hcomment := unpackStyle?_packStyle h.beforeComment
  have hstring := unpackStyle?_packStyle h.beforeString
  have hlastLt := packStyle_lt context.lastStyle?
  have hcommentLt := packStyle_lt context.beforeComment?
  have hstringLt := packStyle_lt context.beforeString?
  obtain ⟨hoperatorLt, hoperator⟩ := unpackOperator?_packOperator h.operator
  rw [unpack, pack, Int32.toInt_ofNat_of_lt (by omega), Int.toNat_natCast]
  generalize packStyle context.lastStyle? = last at *
  generalize packStyle context.beforeComment? = comment at *
  generalize packStyle context.beforeString? = string at *
  generalize packOperator context.operator? = operator at *
  have h1 : (last + comment * 0x20 + string * 0x400 + operator * 0x8000) % 32 = last := by omega
  have h2 : (last + comment * 0x20 + string * 0x400 + operator * 0x8000) / 0x20 % 32 = comment := by omega
  have h3 : (last + comment * 0x20 + string * 0x400 + operator * 0x8000) / 0x400 % 32 = string := by omega
  have h4 : (last + comment * 0x20 + string * 0x400 + operator * 0x8000) / 0x8000 = operator := by omega
  rw [h1, h2, h3, h4, hlast, hcomment, hstring, hoperator]

theorem packable_of_unpackStyle? {field : Nat} (hfield : field < 32) {style : Highlight.Style}
    (h : unpackStyle? field = some style) : Packable style := by
  unfold unpackStyle? at h
  split at h
  . cases h
  . next number =>
    cases h
    unfold Packable
    have hbyte : number < UInt8.size := Nat.lt_trans (Nat.lt_of_succ_lt hfield) (by decide)
    rw [UInt8.toNat_ofNat_of_lt' hbyte]
    omega

theorem sign_mem_of_unpackOperator? {field : Nat} {operator : Operator} (h : unpackOperator? field = some operator) :
    operator.sign ∈ operators := by
  unfold unpackOperator? at h
  split at h
  . cases h
  . obtain ⟨sign, hsign, rfl⟩ := Option.map_eq_some_iff.mp h
    exact List.mem_of_getElem? hsign

/--
Whatever a line state is, what is read of it can be packed again.
-/
theorem fits_unpack (state : LineState) : (unpack state).Fits := by
  constructor
  . intro style hstyle
    exact packable_of_unpackStyle? (Nat.mod_lt _ (by decide)) hstyle
  . intro style hstyle
    exact packable_of_unpackStyle? (Nat.mod_lt _ (by decide)) hstyle
  . intro style hstyle
    exact packable_of_unpackStyle? (Nat.mod_lt _ (by decide)) hstyle
  . intro operator hoperator
    exact sign_mem_of_unpackOperator? hoperator

end Context

end Highlight.Scss
