import AtmCache.DictLate
import AtmCache.ObjModel
import AtmCache.SipCase
import AtmCache.ThreeWay
import AtmCache.SessModel
import AtmCache.StrHeader

/-!
# Keys that compare and hash alike

On strings whose header counts the bytes before the first NUL, the sign of `atm_str_cmp` orders
the contents, shorter ones first (`str_cmp_sign`), so that two strings match exactly where their
contents are equal, and then they hash alike (`str_hash_eq`). Objects with the functions of
strings inherit it (`obj_coherent`), which makes them keys for a dictionary (`obj_keys_lawful`, `obj_sets_late`).
-/
namespace AtmCache.Objects
open CStrings KeyMaps Runs Strings ThreeWay

/-- The header counts the bytes before the first NUL. -/
structure WellFormed (s : Str) : Prop where
  ended : s.len < s.val.length
  first : s.val.idxOf 0 = s.len
  small : s.len < 2^32

theorem header_well_formed {s : Str} (ok : HeaderOk s) : WellFormed s where
  ended := by
    have block := ok.block
    have bound := ok.bound
    omega
  first := ok.first
  small := by
    have small := ok.small
    have bound := ok.bound
    omega

def content (s : Str) : List Byte := s.val.take s.len

/-- A pointer to a well-formed string. -/
structure Key (m : Mem) where
  ptr : Nat
  str : Str
  held : m ptr = some str
  ok : WellFormed str

def Key.content {m : Mem} (k : Key m) : List Byte := Objects.content k.str

/-- An object of a type with the functions of strings, whose value is such a pointer. -/
structure ObjKey (siphash_seed : Vector Byte 16) (types : Nat → T) (m : Mem) where
  t : Nat
  typed : types t = ATM_STR_TYPE siphash_seed
  value : Key m

def ObjKey.obj {siphash_seed : Vector Byte 16} {types : Nat → T} {m : Mem} (o : ObjKey siphash_seed types m) : Option Obj :=
  some ⟨some o.t,some o.value.ptr⟩

variable {m : Mem}

/-! ### Contents -/

theorem content_length {s : Str} (ok : WellFormed s) : (content s).length = s.len :=
  List.length_take_of_le ok.ended.le

theorem strlen_content {s : Str} (ok : WellFormed s) : strlen s.val = .ok s.len := by
  rw [strlen,if_pos (List.idxOf_lt_length_iff.mp (ok.first ▸ ok.ended)),ok.first]

theorem strcmp_sign (s t : List Byte) : Sign (List.Lex (· < ·)) s t (strcmp s t) := by
  induction s generalizing t with
  | nil =>
    cases t with
    | nil => exact Sign.of_eq []
    | cons b t => exact Sign.of_lt List.Lex.nil
  | cons a s ih =>
    cases t with
    | nil => exact Sign.of_gt List.Lex.nil
    | cons b t =>
      rw [strcmp]
      by_cases same : a = b
      · subst same
        rw [if_pos rfl]
        exact (ih t).cons a
      · rw [if_neg same]
        rcases UInt8.lt_or_lt_of_ne same with less | more
        · rw [if_pos less]
          exact Sign.of_lt (List.Lex.rel less)
        · rw [if_neg (UInt8.lt_asymm more)]
          exact Sign.of_gt (List.Lex.rel more)

/-- The comparison of the strings themselves. -/
theorem cmp_sign {s t : Str} (ok : WellFormed s) (ok' : WellFormed t) :
    ∃ c, Strings.atm_str_cmp (some s) (some t) = .ok c ∧ Sign (List.Shortlex (· < ·)) (content s) (content t) c := by
  have lengths := content_length ok
  have lengths' := content_length ok'
  have whole : Strings.atm_str_cmp (some s) (some t) =
      if t.len < s.len then .ok ATM_CMP_GT
      else if s.len < t.len then .ok ATM_CMP_LT
      else do return strcmp (s.val.take (← strlen s.val)) (t.val.take (← strlen t.val)) := rfl
  by_cases longer : t.len < s.len
  · rw [whole,if_pos longer]
    exact ⟨_,rfl,Sign.of_gt (List.Shortlex.of_length_lt (by omega))⟩
  · rw [whole,if_neg longer]
    by_cases shorter : s.len < t.len
    · rw [if_pos shorter]
      exact ⟨_,rfl,Sign.of_lt (List.Shortlex.of_length_lt (by omega))⟩
    · rw [if_neg shorter,strlen_content ok,strlen_content ok',ok_bind,ok_bind]
      exact ⟨_,rfl,(strcmp_sign _ _).shortlex (by omega)⟩

/-! ### Strings -/

theorem block_key (k : Key m) : block m (some k.ptr) = .ok (some k.str) := by
  rw [block,k.held]

/-- The test for equal pointers does not change the result. -/
theorem str_cmp_value (p q : Key m) : atm_str_cmp m (some p.ptr) (some q.ptr) = Strings.atm_str_cmp (some p.str) (some q.str) := by
  rw [atm_str_cmp,block_key,block_key,ok_bind,ok_bind]
  by_cases same : p.ptr = q.ptr
  · have equal : p.str = q.str := Option.some.inj (p.held.symm.trans (same ▸ q.held))
    obtain ⟨c,compared,sign⟩ := cmp_sign p.ok p.ok
    rw [if_pos (congrArg some same),← equal,compared,sign.zero.mpr rfl]
    rfl
  · rw [if_neg (fun equal => same (Option.some.inj equal))]

theorem str_cmp_sign (p q : Key m) :
    ∃ c, atm_str_cmp m (some p.ptr) (some q.ptr) = .ok c ∧ Sign (List.Shortlex (· < ·)) p.content q.content c := by
  rw [str_cmp_value]
  exact cmp_sign p.ok q.ok

theorem str_match_ok (p q : Key m) : atm_str_match m (some p.ptr) (some q.ptr) = .ok (p.content = q.content) := by
  obtain ⟨c,compared,sign⟩ := str_cmp_sign p q
  rw [atm_str_match,atm_str_eq,compared,ok_bind,pure_eq_ok,decide_eq_decide.mpr sign.zero]

/-- The hash of the `len` bytes is the hash of the content. -/
theorem str_hash_content (siphash_seed : Vector Byte 16) (p : Key m) :
    atm_str_hash siphash_seed m (some p.ptr) =
      Siphash.atm_siphash siphash_seed p.content (UInt32.ofNat p.content.length) := by
  have length : p.content.length = p.str.len := content_length p.ok
  have counted : (UInt32.ofNat p.str.len).toNat = p.str.len := by
    rw [UInt32.toNat_ofNat',Nat.mod_eq_of_lt p.ok.small]
  have taken : Siphash.atm_siphash siphash_seed (p.str.val.take (UInt32.ofNat p.str.len).toNat) (UInt32.ofNat p.str.len) =
      Siphash.atm_siphash siphash_seed p.str.val (UInt32.ofNat p.str.len) := Siphash.siphash_with_take ..
  rw [counted] at taken
  rw [atm_str_hash,block_key,ok_bind,length]
  exact taken.symm

theorem str_hash_returns (siphash_seed : Vector Byte 16) (p : Key m) :
    ∃ hash, atm_str_hash siphash_seed m (some p.ptr) = .ok hash := by
  have length : p.content.length = p.str.len := content_length p.ok
  rw [str_hash_content]
  apply Siphash.siphash_with_returns
  rw [UInt32.toNat_ofNat']
  exact Nat.mod_le _ _

theorem str_hash_eq (siphash_seed : Vector Byte 16) {p q : Key m} (same : p.content = q.content) :
    ∃ hash, atm_str_hash siphash_seed m (some p.ptr) = .ok hash ∧ atm_str_hash siphash_seed m (some q.ptr) = .ok hash := by
  obtain ⟨hash,returned⟩ := str_hash_returns siphash_seed p
  refine ⟨hash,returned,?_⟩
  rw [str_hash_content,← same,← str_hash_content,returned]

/-! ### Objects -/

section
variable {siphash_seed : Vector Byte 16} {types : Nat → T}

theorem obj_match_ok (a b : ObjKey siphash_seed types m) :
    atm_obj_match types m a.obj b.obj = .ok (a.t = b.t ∧ a.value.content = b.value.content) := by
  by_cases same : a.t = b.t
  · have typed : (types a.t).match_fn = some atm_str_match := congrArg T.match_fn a.typed
    by_cases pointers : a.value.ptr = b.value.ptr
    · have equal : a.value.content = b.value.content :=
        congrArg content (Option.some.inj (a.value.held.symm.trans (pointers ▸ b.value.held)))
      simp only [ObjKey.obj,atm_obj_match,same,pointers,equal,ne_eq,not_true,if_false,if_true,and_self,decide_true]
    · simp only [ObjKey.obj,atm_obj_match,← same,pointers,Option.some.injEq,ne_eq,not_true,if_false,typed,true_and]
      exact str_match_ok a.value b.value
  · simp only [ObjKey.obj,atm_obj_match,same,Option.some.injEq,ne_eq,not_false_eq_true,if_true,false_and,decide_false]

theorem obj_match_true (a b : ObjKey siphash_seed types m) :
    atm_obj_match types m a.obj b.obj = .ok true ↔ a.t = b.t ∧ a.value.content = b.value.content := by
  rw [obj_match_ok,Except.ok.injEq,decide_eq_true_eq]

theorem obj_hash_ok (a : ObjKey siphash_seed types m) :
    atm_obj_hash types m a.obj = atm_str_hash siphash_seed m (some a.value.ptr) := by
  have typed : (types a.t).hash = some (atm_str_hash siphash_seed) := congrArg T.hash a.typed
  simp only [ObjKey.obj,atm_obj_hash,typed]

theorem obj_compare_ok {a b : ObjKey siphash_seed types m} (same : a.t = b.t) :
    atm_obj_compare types m a.obj b.obj = atm_str_cmp m (some a.value.ptr) (some b.value.ptr) := by
  have typed : (types a.t).compare = some atm_str_cmp := congrArg T.compare a.typed
  simp only [ObjKey.obj,atm_obj_compare,← same,if_true,typed]

theorem obj_coherent (siphash_seed : Vector Byte 16) (types : Nat → T) (m : Mem) :
    Coherent (fun a b : ObjKey siphash_seed types m => atm_obj_match types m a.obj b.obj)
      (fun a => atm_obj_hash types m a.obj) where
  refl a := (obj_match_true a a).mpr ⟨rfl,rfl⟩
  symm matched := by
    obtain ⟨typed,same⟩ := (obj_match_true _ _).mp matched
    exact (obj_match_true _ _).mpr ⟨typed.symm,same.symm⟩
  trans matched matched' := by
    obtain ⟨typed,same⟩ := (obj_match_true _ _).mp matched
    obtain ⟨typed',same'⟩ := (obj_match_true _ _).mp matched'
    exact (obj_match_true _ _).mpr ⟨typed.trans typed',same.trans same'⟩
  hash_eq matched := by
    obtain ⟨_,same⟩ := (obj_match_true _ _).mp matched
    rw [obj_hash_ok,obj_hash_ok]
    exact str_hash_eq siphash_seed same

/-- Such objects as keys of a dictionary. -/
def obj_keys (siphash_seed : Vector Byte 16) (types : Nat → T) (m : Mem) : Dict.KeyType (ObjKey siphash_seed types m) where
  match_key a b := (atm_obj_match types m a.obj b.obj).toOption.getD false
  hash a := (atm_obj_hash types m a.obj).toOption.getD 0

theorem obj_keys_match (a b : ObjKey siphash_seed types m) :
    (obj_keys siphash_seed types m).match_key a b = true ↔ atm_obj_match types m a.obj b.obj = .ok true := by
  simp only [obj_keys,obj_match_ok,Except.ok.injEq]
  rfl

theorem obj_keys_lawful (siphash_seed : Vector Byte 16) (types : Nat → T) (m : Mem) :
    (obj_keys siphash_seed types m).Lawful where
  equiv := by
    have coherent := obj_coherent siphash_seed types m
    constructor
    · intro a
      exact (obj_keys_match a a).mpr (coherent.refl a)
    · intro a b matched
      exact (obj_keys_match b a).mpr (coherent.symm ((obj_keys_match a b).mp matched))
    · intro a b c matched matched'
      exact (obj_keys_match a c).mpr (coherent.trans ((obj_keys_match a b).mp matched) ((obj_keys_match b c).mp matched'))
  hash_eq matched := by
    obtain ⟨hash,left,right⟩ := (obj_coherent siphash_seed types m).hash_eq ((obj_keys_match _ _).mp matched)
    simp only [obj_keys,left,right]

/-- A cache of such objects that is only set never misses a key that was set. -/
theorem obj_sets_late (siphash_seed : Vector Byte 16) (types : Nat → T) (m : Mem) {V : Type} {free_type : Dict.FreeType}
    {ops : List (Dict.Op (ObjKey siphash_seed types m) V)} (sets : Dict.Sets ops) :
    Always (Dict.step (obj_keys siphash_seed types m)) (Dict.atm_dict_new free_type) ops
      (Dict.Late (obj_keys siphash_seed types m)) :=
  Dict.sets_late (obj_keys_lawful siphash_seed types m) sets

end

/-- The keys of the dictionaries: the sign of the comparison of strings is a strict total order of their
    contents, matching strings hash alike, and so do matching objects, which match where they compare equal. -/
theorem keys_coherent (siphash_seed : Vector Byte 16) (types : Nat → T) (m : Mem) :
    TotalOrder (fun p q : Key m => atm_str_cmp m (some p.ptr) (some q.ptr)) (fun p q => p.content = q.content) ∧
      (∀ p q : Key m, ∃ c, atm_str_cmp m (some p.ptr) (some q.ptr) = .ok c ∧
        (c < 0 ↔ List.Shortlex (· < ·) p.content q.content)) ∧
      (∀ p q : Key m, atm_str_match m (some p.ptr) (some q.ptr) = .ok (p.content = q.content)) ∧
      Coherent (fun p q : Key m => atm_str_match m (some p.ptr) (some q.ptr))
        (fun p => atm_str_hash siphash_seed m (some p.ptr)) ∧
      Coherent (fun a b : ObjKey siphash_seed types m => atm_obj_match types m a.obj b.obj)
        (fun a => atm_obj_hash types m a.obj) ∧
      ∀ a b : ObjKey siphash_seed types m, a.t = b.t →
        ∃ res c, atm_obj_match types m a.obj b.obj = .ok res ∧ atm_obj_compare types m a.obj b.obj = .ok c ∧
          (res = true ↔ c = 0) := by
  refine ⟨?_,?_,str_match_ok,?_,obj_coherent siphash_seed types m,?_⟩
  · apply TotalOrder.of_sign _ Key.content str_cmp_sign
    intro s t u first second
    refine shortlex_trans ?_ first second
    intro a b c
    exact UInt8.lt_trans
  · intro p q
    obtain ⟨c,compared,sign⟩ := str_cmp_sign p q
    exact ⟨c,compared,sign.neg⟩
  · have matched : ∀ p q : Key m, atm_str_match m (some p.ptr) (some q.ptr) = .ok true ↔ p.content = q.content := by
      intro p q
      rw [str_match_ok,Except.ok.injEq,decide_eq_true_eq]
    constructor
    · intro p
      exact (matched p p).mpr rfl
    · intro p q same
      exact (matched q p).mpr ((matched p q).mp same).symm
    · intro p q r same same'
      exact (matched p r).mpr (((matched p q).mp same).trans ((matched q r).mp same'))
    · intro p q same
      exact str_hash_eq siphash_seed ((matched p q).mp same)
  · intro a b typed
    obtain ⟨c,compared,sign⟩ := str_cmp_sign a.value b.value
    refine ⟨_,c,obj_match_ok a b,(obj_compare_ok typed).trans compared,?_⟩
    rw [decide_eq_true_eq,sign.zero]
    exact and_iff_right typed

/-- Two copies of one text in blocks of different sizes. -/
def copies : Mem
  | 8 => some ⟨2,2,[97,98,0]⟩
  | 24 => some ⟨3,2,[97,98,0,99]⟩
  | _ => none

/-- The type of strings at every address. -/
def str_types : Nat → T := fun _ => ATM_STR_TYPE (Vector.replicate 16 0)

theorem keys_coherent_copies :
    ∃ res c, atm_obj_match str_types copies (some ⟨some 0,some 8⟩) (some ⟨some 0,some 24⟩) = .ok res ∧
      atm_obj_compare str_types copies (some ⟨some 0,some 8⟩) (some ⟨some 0,some 24⟩) = .ok c ∧ (res = true ↔ c = 0) :=
  (keys_coherent (Vector.replicate 16 0) str_types copies).2.2.2.2.2
    ⟨0,rfl,⟨8,⟨2,2,[97,98,0]⟩,rfl,⟨by decide,by decide,by decide⟩⟩⟩
    ⟨0,rfl,⟨24,⟨3,2,[97,98,0,99]⟩,rfl,⟨by decide,by decide,by decide⟩⟩⟩ rfl

end AtmCache.Objects
