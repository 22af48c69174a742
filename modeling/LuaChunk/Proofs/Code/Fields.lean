import Mathlib.Algebra.Group.Nat.Defs
import LuaChunk.Code.Instruction

set_option autoImplicit false

namespace LuaChunk.Instruction

theorem testBit_get (i : Instruction) (f : Field) (n : Nat) :
    (i.get f).testBit n = (decide (n < f.size) && i.word.toNat.testBit (f.pos + n)) := by
  change (i.word.toNat >>> f.pos % 2 ^ f.size).testBit n = _
  rw [Nat.testBit_mod_two_pow, Nat.testBit_shiftRight]

theorem testBit_mask (f : Field) (h : f.pos + f.size ≤ 32) (n : Nat) :
    f.mask.toNat.testBit n = (decide (f.pos ≤ n) && decide (n < f.pos + f.size)) := by
  unfold Field.mask Field.limit
  rw [UInt32.toNat_ofNat', Nat.testBit_mod_two_pow, Nat.testBit_shiftLeft]
  change (decide (n < 32) && (decide (n ≥ f.pos) && (2 ^ f.size - 1).testBit (n - f.pos))) = _
  rw [Nat.testBit_two_pow_sub_one]
  by_cases h₁ : f.pos ≤ n
  · by_cases h₂ : n < f.pos + f.size
    · have h₃ : n < 32 := by omega
      have h₄ : n - f.pos < f.size := by omega
      simp [h₁, h₂, h₃, h₄]
    · have h₄ : ¬ n - f.pos < f.size := by omega
      simp [h₂, h₄]
  · simp [h₁]

theorem testBit_set (i : Instruction) (f : Field) (v : UInt32) (h : f.pos + f.size ≤ 32)
    (hp : f.pos < 32) (n : Nat) (hn : n < 32) :
    (i.set f v).word.toNat.testBit n =
      if f.pos ≤ n ∧ n < f.pos + f.size then v.toNat.testBit (n - f.pos)
      else i.word.toNat.testBit n := by
  have hs : (f.pos.toUInt32.toNat % 32) = f.pos := by
    rw [Nat.toUInt32, UInt32.toNat_ofNat']
    omega
  unfold set
  rw [UInt32.toNat_or, UInt32.toNat_and, UInt32.toNat_and, UInt32.toNat_not,
    UInt32.toNat_shiftLeft, hs]
  rw [Nat.testBit_or, Nat.testBit_and, Nat.testBit_and, testBit_mask f h,
    Nat.testBit_mod_two_pow, Nat.testBit_shiftLeft]
  have hnot : (UInt32.size - 1 - f.mask.toNat).testBit n = !f.mask.toNat.testBit n := by
    have hlt : f.mask.toNat < 2 ^ 32 := f.mask.toNat_lt
    have := Nat.testBit_two_pow_sub_succ hlt n
    rw [show UInt32.size - 1 - f.mask.toNat = 2 ^ 32 - (f.mask.toNat + 1) by
      simp only [UInt32.size]; omega, this]
    simp [hn]
  rw [hnot, testBit_mask f h]
  by_cases h₁ : f.pos ≤ n
  · by_cases h₂ : n < f.pos + f.size
    · simp [h₁, h₂, hn]
    · simp [h₁, h₂, hn]
  · simp [h₁]

theorem get_set_self (i : Instruction) (f : Field) (v : UInt32) (h : f.pos + f.size ≤ 32)
    (hp : f.pos < 32) : (i.set f v).get f = v.toNat % 2 ^ f.size := by
  apply Nat.eq_of_testBit_eq
  intro n
  rw [testBit_get, Nat.testBit_mod_two_pow]
  by_cases hn : n < f.size
  · rw [testBit_set i f v h hp _ (by omega)]
    simp [hn]
  · simp [hn]

theorem get_set_of_disjoint (i : Instruction) (f g : Field) (v : UInt32)
    (h : f.pos + f.size ≤ 32) (hp : f.pos < 32) (hg : g.pos + g.size ≤ 32)
    (hd : f.pos + f.size ≤ g.pos ∨ g.pos + g.size ≤ f.pos) :
    (i.set f v).get g = i.get g := by
  apply Nat.eq_of_testBit_eq
  intro n
  rw [testBit_get, testBit_get]
  by_cases hn : n < g.size
  · rw [testBit_set i f v h hp _ (by omega), if_neg (by omega)]
  · simp [hn]

def Field.apart (f g : Field) : Bool :=
  f.pos + f.size ≤ 32 && g.pos + g.size ≤ 32 && f.pos < 32 &&
    (f.pos + f.size ≤ g.pos || g.pos + g.size ≤ f.pos)

theorem get_set_apart (i : Instruction) (v : UInt32) {f g : Field} (h : f.apart g = true) :
    (i.set f v).get g = i.get g := by
  simp only [Field.apart, Bool.and_eq_true, Bool.or_eq_true, decide_eq_true_eq] at h
  exact get_set_of_disjoint i f g v h.1.1.1 h.1.2 h.1.1.2 h.2

theorem Field.fits_iff (f : Field) (v : Nat) : f.fits v = true ↔ v ≤ f.limit := by
  simp [Field.fits]

theorem get_set_fits (i : Instruction) {f : Field} {v : Nat} (h : f.fits v = true)
    (hs : f.pos + f.size ≤ 32) (hp : f.pos < 32) : (i.set f (UInt32.ofNat v)).get f = v := by
  have hlt : v < 2 ^ f.size := by
    have h₁ := (f.fits_iff v).1 h
    have h₂ : 0 < 2 ^ f.size := Nat.two_pow_pos _
    unfold Field.limit at h₁
    change v ≤ 2 ^ f.size - 1 at h₁
    omega
  have h₃ : 2 ^ f.size ≤ 2 ^ 32 := Nat.pow_le_pow_right (by omega) (by omega)
  rw [get_set_self i f _ hs hp, UInt32.toNat_ofNat', Nat.mod_eq_of_lt (a := v) (by omega),
    Nat.mod_eq_of_lt hlt]

theorem setAll_two (i : Instruction) (f g : Field) (v w : Nat) :
    i.setAll [(f, v), (g, w)] = (i.set f (UInt32.ofNat v)).set g (UInt32.ofNat w) := rfl

theorem get_setAll_apart (g : Field) (changes : List (Field × Nat)) (i : Instruction)
    (h : (changes.all fun x => x.1.apart g) = true) : (i.setAll changes).get g = i.get g := by
  induction changes generalizing i with
  | nil => rfl
  | cons x rest ih =>
    rw [List.all_cons, Bool.and_eq_true] at h
    have hstep : (i.set x.1 (UInt32.ofNat x.2)).get g = i.get g := get_set_apart i _ h.1
    exact (ih _ h.2).trans hstep

theorem opcode?_setAll (i : Instruction) (changes : List (Field × Nat))
    (h : (changes.all fun x => x.1.apart .opcode) = true) :
    (i.setAll changes).opcode? = i.opcode? := by
  unfold opcode? opcode
  rw [get_setAll_apart .opcode changes i h]

theorem opcode?_set (i : Instruction) (v : UInt32) {f : Field} (h : f.apart .opcode = true) :
    (i.set f v).opcode? = i.opcode? := by
  unfold opcode? opcode
  rw [get_set_apart i v h]

theorem get_setAll_two (i : Instruction) {f g : Field} {v w : Nat} (hv : f.fits v = true)
    (hw : g.fits w = true) (hfg : g.apart f = true) (hgf : f.apart g = true) :
    (i.setAll [(f, v), (g, w)]).get f = v ∧ (i.setAll [(f, v), (g, w)]).get g = w := by
  simp only [Field.apart, Bool.and_eq_true, decide_eq_true_eq] at hgf
  rw [setAll_two, get_set_apart _ _ hfg]
  exact ⟨get_set_fits i hv hgf.1.1.1 hgf.1.2, by
    simp only [Field.apart, Bool.and_eq_true, decide_eq_true_eq] at hfg
    exact get_set_fits _ hw hfg.1.1.1 hfg.1.2⟩

theorem sj_setSJ (i : Instruction) {v : Int} (hl : -offsetSJ ≤ v) (hu : v ≤ maxSJ - offsetSJ) :
    (i.setSJ v).sj = v := by
  simp only [offsetSJ, maxSJ] at hl hu
  have hn : (v + offsetSJ).toNat ≤ 33554431 := by simp only [offsetSJ]; omega
  have h₀ : 0 ≤ v + offsetSJ := by simp only [offsetSJ]; omega
  have hofInt : UInt32.ofInt (v + offsetSJ) = UInt32.ofNat (v + offsetSJ).toNat := by
    apply UInt32.toNat_inj.1
    simp only [UInt32.ofInt, UInt32.toNat_ofNat']
    omega
  unfold setSJ sj
  rw [hofInt, get_set_fits i ((Field.fits_iff _ _).2 (by simpa [Field.limit, Field.sj] using hn))
    (by decide) (by decide), Int.toNat_of_nonneg h₀]
  omega

@[simp] theorem opcode?_setSJ (i : Instruction) (v : Int) : (i.setSJ v).opcode? = i.opcode? :=
  opcode?_set i _ (by decide)

theorem opcode_join (op : UInt8) (operands : List (Field × UInt32)) (hop : op.toNat < 128)
    (h : ∀ x ∈ operands, 7 ≤ x.1.pos ∧ x.1.pos < 32) : (join op operands).opcode = op.toNat := by
  have key : ∀ w : UInt32, w.toNat % 128 = op.toNat →
      (operands.foldl (fun w (x : Field × UInt32) => w ||| (x.2 <<< x.1.pos.toUInt32)) w).toNat %
      128
        = op.toNat := by
    induction operands with
    | nil => intro w hw; exact hw
    | cons x rest ih =>
      intro w hw
      rw [List.foldl_cons]
      apply ih (fun y hy => h y (List.mem_cons_of_mem _ hy))
      obtain ⟨h₁, h₂⟩ := h x (List.mem_cons_self ..)
      have hs : x.1.pos.toUInt32.toNat % 32 = x.1.pos := by
        rw [Nat.toUInt32, UInt32.toNat_ofNat']
        omega
      rw [UInt32.toNat_or, UInt32.toNat_shiftLeft, hs, ← hw]
      apply Nat.eq_of_testBit_eq
      intro n
      rw [show 128 = 2 ^ 7 from rfl, Nat.testBit_mod_two_pow, Nat.testBit_mod_two_pow,
        Nat.testBit_or, Nat.testBit_mod_two_pow, Nat.testBit_shiftLeft]
      by_cases hn : n < 7
      · have : ¬ x.1.pos ≤ n := by omega
        simp [this]
      · simp [hn]
  have := key op.toUInt32 (by rw [UInt8.toNat_toUInt32]; omega)
  unfold opcode get join
  rw [show Field.opcode.pos = 0 from rfl, Nat.shiftRight_zero]
  exact this

end LuaChunk.Instruction

namespace LuaChunk.Opcode

open Instruction

theorem toNat_byteOf (op : Opcode) : op.byteOf.toNat = op.number := by
  have := op.number_lt
  unfold byteOf
  rw [Nat.toUInt8, UInt8.toNat_ofNat']
  omega

theorem number_all (k : Fin all.size) : (all[k]).number = k := by
  revert k
  decide

theorem ofNumber?_eq_some {n : Nat} {op : Opcode} (h : ofNumber? n = some op) : n = op.number := by
  obtain ⟨hn, rfl⟩ := Array.getElem?_eq_some_iff.1 h
  exact (number_all ⟨n, hn⟩).symm

@[simp] theorem opcode_abck (op : Opcode) (a b c k : Nat) :
    (op.abck a b c k).opcode = op.number := by
  have := op.number_lt
  rw [← toNat_byteOf]
  exact opcode_join _ _ (by rw [toNat_byteOf]; omega) (by simp [Field.a, Field.b, Field.c, Field.k])

@[simp] theorem opcode_vabck (op : Opcode) (a b c k : Nat) :
    (op.vabck a b c k).opcode = op.number := by
  have := op.number_lt
  rw [← toNat_byteOf]
  exact opcode_join _ _ (by rw [toNat_byteOf]; omega)
    (by simp [Field.a, Field.vb, Field.vc, Field.k])

@[simp] theorem opcode_abx (op : Opcode) (a bx : Nat) : (op.abx a bx).opcode = op.number := by
  have := op.number_lt
  rw [← toNat_byteOf]
  exact opcode_join _ _ (by rw [toNat_byteOf]; omega) (by simp [Field.a, Field.bx])

@[simp] theorem opcode_asbx (op : Opcode) (a : Nat) (sbx : Int) :
    (op.asbx a sbx).opcode = op.number := by
  have := op.number_lt
  rw [← toNat_byteOf]
  exact opcode_join _ _ (by rw [toNat_byteOf]; omega) (by simp [Field.a, Field.bx])

@[simp] theorem opcode_ax (op : Opcode) (v : Nat) : (op.ax v).opcode = op.number := by
  have := op.number_lt
  rw [← toNat_byteOf]
  exact opcode_join _ _ (by rw [toNat_byteOf]; omega) (by simp [Field.ax])

@[simp] theorem opcode_sj (op : Opcode) (v : Int) (k : Nat) : (op.sj v k).opcode = op.number := by
  have := op.number_lt
  rw [← toNat_byteOf]
  exact opcode_join _ _ (by rw [toNat_byteOf]; omega) (by simp [Field.sj, Field.k])

end LuaChunk.Opcode

namespace LuaChunk.Draft

open Instruction (Field offsetSBx offsetSJ ofABCk ofVABCk ofABx ofAsBx ofSJ join)

def opcode : Draft → Opcode
  | .abck op .. | .vabck op .. | .abx op .. | .asbx op .. | .ax op _ | .sj op _ => op

@[simp] theorem opcode?_word (d : Draft) : d.word.opcode? = some d.opcode := by
  cases d <;> simp [word, opcode, Instruction.opcode?]

theorem fits_abck {op : Opcode} {a b c k : Nat} :
    (Draft.abck op a b c k).fits = true ↔ a ≤ 255 ∧ b ≤ 255 ∧ c ≤ 255 ∧ k ≤ 1 := by
  simp [fits, Field.fits_iff, Field.limit, Field.a, Field.b, Field.c, Field.k, and_assoc]

theorem fits_vabck {op : Opcode} {a b c k : Nat} :
    (Draft.vabck op a b c k).fits = true ↔ a ≤ 255 ∧ b ≤ 63 ∧ c ≤ 1023 ∧ k ≤ 1 := by
  simp [fits, Field.fits_iff, Field.limit, Field.a, Field.vb, Field.vc, Field.k, and_assoc]

theorem fits_abx {op : Opcode} {a bx : Nat} :
    (Draft.abx op a bx).fits = true ↔ a ≤ 255 ∧ bx ≤ 131071 := by
  simp [fits, Field.fits_iff, Field.limit, Field.a, Field.bx]

theorem fits_asbx {op : Opcode} {a : Nat} {sbx : Int} :
    (Draft.asbx op a sbx).fits = true ↔ a ≤ 255 ∧ -65535 ≤ sbx ∧ sbx ≤ 65536 := by
  simp only [fits, Bool.and_eq_true, decide_eq_true_eq, Field.fits_iff]
  simp [Field.limit, Field.a, Field.bx, offsetSBx]
  omega

theorem fits_ax {op : Opcode} {v : Nat} : (Draft.ax op v).fits = true ↔ v ≤ 33554431 := by
  simp [fits, Field.fits_iff, Field.limit, Field.ax]

theorem fits_sj {op : Opcode} {v : Int} :
    (Draft.sj op v).fits = true ↔ -16777215 ≤ v ∧ v ≤ 16777216 := by
  simp only [fits, Bool.and_eq_true, decide_eq_true_eq, Field.fits_iff]
  simp [Field.limit, Field.sj, offsetSJ]
  omega

theorem or_fields (op a k b c : Nat) {p q : Nat} (hop : op < 2 ^ 7) (ha : a < 2 ^ 8) (hk : k < 2)
    (hb : b < 2 ^ p) (hpq : 16 + p = q) :
    (((op ||| a <<< 7) ||| b <<< 16) ||| c <<< q) ||| k <<< 15
      = op + a * 2 ^ 7 + k * 2 ^ 15 + b * 2 ^ 16 + c * 2 ^ q := by
  have h₁ : a <<< 7 + op = a <<< 7 ||| op := Nat.shiftLeft_add_eq_or_of_lt hop a
  have h₂ : k <<< 15 + (a <<< 7 + op) = k <<< 15 ||| (a <<< 7 + op) :=
    Nat.shiftLeft_add_eq_or_of_lt (by rw [Nat.shiftLeft_eq]; omega) k
  have h₃ : b <<< 16 + (k <<< 15 + (a <<< 7 + op)) = b <<< 16 ||| (k <<< 15 + (a <<< 7 + op)) :=
    Nat.shiftLeft_add_eq_or_of_lt (by simp only [Nat.shiftLeft_eq]; omega) b
  have h₄ : c <<< q + (b <<< 16 + (k <<< 15 + (a <<< 7 + op)))
      = c <<< q ||| (b <<< 16 + (k <<< 15 + (a <<< 7 + op))) := by
    apply Nat.shiftLeft_add_eq_or_of_lt
    rw [← hpq, Nat.pow_add]
    simp only [Nat.shiftLeft_eq]
    have : b * 2 ^ 16 + 2 ^ 16 ≤ 2 ^ p * 2 ^ 16 := by
      rw [← Nat.succ_mul]; exact Nat.mul_le_mul_right _ hb
    omega
  calc (((op ||| a <<< 7) ||| b <<< 16) ||| c <<< q) ||| k <<< 15
      = c <<< q ||| (b <<< 16 ||| (k <<< 15 ||| (a <<< 7 ||| op))) := by ac_rfl
    _ = c <<< q + (b <<< 16 + (k <<< 15 + (a <<< 7 + op))) := by rw [h₄, h₃, h₂, h₁]
    _ = _ := by simp only [Nat.shiftLeft_eq]; omega

theorem toNat_shiftLeft_ofNat {v p : Nat} (hp : p < 32) (hv : v * 2 ^ p < 2 ^ 32) :
    (UInt32.ofNat v <<< p.toUInt32).toNat = v <<< p := by
  have hs : p.toUInt32.toNat % 32 = p := by
    rw [Nat.toUInt32, UInt32.toNat_ofNat']
    omega
  have hv' : v < 2 ^ 32 := by
    have : v * 1 ≤ v * 2 ^ p := Nat.mul_le_mul_left _ Nat.one_le_two_pow
    omega
  rw [UInt32.toNat_shiftLeft, hs, UInt32.toNat_ofNat', Nat.mod_eq_of_lt hv']
  rw [Nat.shiftLeft_eq, Nat.mod_eq_of_lt hv]

theorem toNat_abck {op : Opcode} {a b c k : Nat} (h : (Draft.abck op a b c k).fits = true) :
    (Draft.abck op a b c k).word.word.toNat
      = op.number + a * 2 ^ 7 + k * 2 ^ 15 + b * 2 ^ 16 + c * 2 ^ 24 := by
  obtain ⟨ha, hb, hc, hk⟩ := fits_abck.1 h
  have hop := op.number_lt
  rw [← or_fields op.number a k b c (p := 8) (by omega) (by omega) (by omega) (by omega) rfl]
  simp only [word, Opcode.abck, ofABCk, join, List.foldl_cons, List.foldl_nil, Field.a, Field.b,
    Field.c, Field.k, UInt32.toNat_or, UInt8.toNat_toUInt32, Opcode.toNat_byteOf]
  rw [toNat_shiftLeft_ofNat (by omega) (by omega), toNat_shiftLeft_ofNat (by omega) (by omega),
    toNat_shiftLeft_ofNat (by omega) (by omega), toNat_shiftLeft_ofNat (by omega) (by omega)]

theorem toNat_vabck {op : Opcode} {a b c k : Nat} (h : (Draft.vabck op a b c k).fits = true) :
    (Draft.vabck op a b c k).word.word.toNat
      = op.number + a * 2 ^ 7 + k * 2 ^ 15 + b * 2 ^ 16 + c * 2 ^ 22 := by
  obtain ⟨ha, hb, hc, hk⟩ := fits_vabck.1 h
  have hop := op.number_lt
  rw [← or_fields op.number a k b c (p := 6) (by omega) (by omega) (by omega) (by omega) rfl]
  simp only [word, Opcode.vabck, ofVABCk, join, List.foldl_cons, List.foldl_nil, Field.a, Field.vb,
    Field.vc, Field.k, UInt32.toNat_or, UInt8.toNat_toUInt32, Opcode.toNat_byteOf]
  rw [toNat_shiftLeft_ofNat (by omega) (by omega), toNat_shiftLeft_ofNat (by omega) (by omega),
    toNat_shiftLeft_ofNat (by omega) (by omega), toNat_shiftLeft_ofNat (by omega) (by omega)]

theorem toNat_ofABx {op : Opcode} {a bx : Nat} (ha : a < 2 ^ 8) (hb : bx < 2 ^ 17) :
    (op.abx a bx).word.toNat = op.number + a * 2 ^ 7 + bx * 2 ^ 15 := by
  have hop := op.number_lt
  have h₁ : a <<< 7 + op.number = a <<< 7 ||| op.number :=
    Nat.shiftLeft_add_eq_or_of_lt (by omega) a
  have h₂ : bx <<< 15 + (a <<< 7 + op.number) = bx <<< 15 ||| (a <<< 7 + op.number) :=
    Nat.shiftLeft_add_eq_or_of_lt (by rw [Nat.shiftLeft_eq]; omega) bx
  simp only [Opcode.abx, ofABx, join, List.foldl_cons, List.foldl_nil, Field.a, Field.bx,
    UInt32.toNat_or, UInt8.toNat_toUInt32, Opcode.toNat_byteOf]
  rw [toNat_shiftLeft_ofNat (by omega) (by omega), toNat_shiftLeft_ofNat (by omega) (by omega)]
  calc (op.number ||| a <<< 7) ||| bx <<< 15 = bx <<< 15 ||| (a <<< 7 ||| op.number) := by ac_rfl
    _ = bx <<< 15 + (a <<< 7 + op.number) := by rw [h₂, h₁]
    _ = _ := by simp only [Nat.shiftLeft_eq]; omega

theorem ofInt_eq_ofNat {n : Int} (h : 0 ≤ n) : UInt32.ofInt n = UInt32.ofNat n.toNat := by
  apply UInt32.toNat_inj.1
  simp only [UInt32.ofInt, UInt32.toNat_ofNat']
  omega

section

variable {op : Opcode} {a b c k bx : Nat} {sbx : Int}

theorem get_abck (h : (Draft.abck op a b c k).fits = true) :
    (Draft.abck op a b c k).word.a = a ∧ (Draft.abck op a b c k).word.b = b ∧
      (Draft.abck op a b c k).word.c = c ∧ (Draft.abck op a b c k).word.k = k := by
  have hw := toNat_abck h
  have hop := op.number_lt
  obtain ⟨ha, hb, hc, hk⟩ := fits_abck.1 h
  simp only [Instruction.a, Instruction.b, Instruction.c, Instruction.k, Instruction.get, hw,
    Field.a, Field.b,
    Field.c, Field.k, Nat.pow_eq, Nat.shiftRight_eq_div_pow]
  refine ⟨?_, ?_, ?_, ?_⟩ <;> omega

theorem get_vabck (h : (Draft.vabck op a b c k).fits = true) :
    (Draft.vabck op a b c k).word.a = a ∧ (Draft.vabck op a b c k).word.vb = b ∧
      (Draft.vabck op a b c k).word.vc = c ∧ (Draft.vabck op a b c k).word.k = k := by
  have hw := toNat_vabck h
  have hop := op.number_lt
  obtain ⟨ha, hb, hc, hk⟩ := fits_vabck.1 h
  simp only [Instruction.a, Instruction.vb, Instruction.vc, Instruction.k, Instruction.get, hw,
    Field.a,
    Field.vb, Field.vc, Field.k, Nat.pow_eq, Nat.shiftRight_eq_div_pow]
  refine ⟨?_, ?_, ?_, ?_⟩ <;> omega

theorem get_ofABx (ha : a < 2 ^ 8) (hb : bx < 2 ^ 17) :
    (op.abx a bx).a = a ∧ (op.abx a bx).bx = bx := by
  have hw := @toNat_ofABx op a bx ha hb
  have hop := op.number_lt
  simp only [Instruction.a, Instruction.bx, Instruction.get, hw, Field.a, Field.bx, Nat.pow_eq,
    Nat.shiftRight_eq_div_pow]
  constructor <;> omega

theorem get_abx (h : (Draft.abx op a bx).fits = true) :
    (Draft.abx op a bx).word.a = a ∧ (Draft.abx op a bx).word.bx = bx := by
  obtain ⟨ha, hb⟩ := fits_abx.1 h
  exact get_ofABx (by omega) (by omega)

theorem get_asbx (h : (Draft.asbx op a sbx).fits = true) :
    (Draft.asbx op a sbx).word.a = a := by
  obtain ⟨ha, hl, hu⟩ := fits_asbx.1 h
  have h₀ : 0 ≤ sbx + offsetSBx := by simp only [offsetSBx]; omega
  have hb : (sbx + offsetSBx).toNat ≤ 131071 := by simp only [offsetSBx]; omega
  have : (Draft.asbx op a sbx).word = op.abx a (sbx + offsetSBx).toNat := by
    simp only [word, Opcode.asbx, ofAsBx, Opcode.abx, ofInt_eq_ofNat h₀]
  rw [this]
  exact (get_ofABx (by omega) (by omega)).1

theorem sbx_asbx (h : (Draft.asbx op a sbx).fits = true) :
    (Draft.asbx op a sbx).word.sbx = sbx := by
  obtain ⟨ha, hl, hu⟩ := fits_asbx.1 h
  have h₀ : 0 ≤ sbx + offsetSBx := by simp only [offsetSBx]; omega
  have hb : (sbx + offsetSBx).toNat ≤ 131071 := by simp only [offsetSBx]; omega
  have hw : (Draft.asbx op a sbx).word = op.abx a (sbx + offsetSBx).toNat := by
    simp only [word, Opcode.asbx, ofAsBx, Opcode.abx, ofInt_eq_ofNat h₀]
  rw [Instruction.sbx, hw, (get_ofABx (by omega) (by omega)).2, Int.toNat_of_nonneg h₀]
  omega

theorem sj_sj {v : Int} (h : (Draft.sj op v).fits = true) : (Draft.sj op v).word.sj = v := by
  obtain ⟨hl, hu⟩ := fits_sj.1 h
  have h₀ : 0 ≤ v + offsetSJ := by simp only [offsetSJ]; omega
  have hb : (v + offsetSJ).toNat ≤ 33554431 := by simp only [offsetSJ]; omega
  have hop := op.number_lt
  have hw : (Draft.sj op v).word.word.toNat = op.number + (v + offsetSJ).toNat * 2 ^ 7 := by
    have h₁ : (v + offsetSJ).toNat <<< 7 + op.number = (v + offsetSJ).toNat <<< 7 ||| op.number :=
      Nat.shiftLeft_add_eq_or_of_lt (by omega) _
    simp only [word, Opcode.sj, ofSJ, join, List.foldl_cons, List.foldl_nil, Field.sj, Field.k,
      UInt32.toNat_or, UInt8.toNat_toUInt32, Opcode.toNat_byteOf, ofInt_eq_ofNat h₀]
    rw [toNat_shiftLeft_ofNat (by omega) (by omega),
      toNat_shiftLeft_ofNat (v := 0) (p := 15) (by decide) (by decide)]
    rw [Nat.zero_shiftLeft, Nat.or_zero, Nat.or_comm, ← h₁, Nat.shiftLeft_eq]
    omega
  simp only [Instruction.sj, Instruction.get, hw, Field.sj, Nat.pow_eq, Nat.shiftRight_eq_div_pow]
  have : (op.number + (v + offsetSJ).toNat * 2 ^ 7) / 2 ^ 7 % 2 ^ 25 = (v + offsetSJ).toNat := by
    omega
  rw [this, Int.toNat_of_nonneg h₀]
  omega

end

end LuaChunk.Draft
