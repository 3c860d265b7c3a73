import Minemon.Core.Authorization

/-!
# The bytes of a template

A template is written in front of a signature, and whoever checks the signature reads it from there, writes it
again and cuts off as many bytes.

* `CTemplate.InRange`: the parameters are values of their C++ types.
* `setTemplateData_append`: a template is read back from its data, whatever stands behind it.
-/

namespace Minemon

open Codec

/-! ## Maps of keys -/

def weightEntry (kv : ℕ × ℕ) : List UInt8 := leBytes 32 kv.1 ++ leBytes 1 kv.2

@[simp] theorem length_weightEntry (kv : ℕ × ℕ) : (weightEntry kv).length = 33 := by simp [weightEntry]

theorem length_weightEntries (l : List (ℕ × ℕ)) : ((l.map weightEntry).flatten).length = 33 * l.length := by
  induction l with
  | nil => rfl
  | cons kv l ih =>
    rw [List.map_cons, List.flatten_cons, List.length_append, ih, length_weightEntry, List.length_cons]
    omega

theorem CTemplateWeighted.length_enc (t : CTemplateWeighted) : t.enc.length = 9 + 33 * t.mapPubKeyWeight.size := by
  rw [CTemplateWeighted.enc, List.length_append, List.length_append, length_leBytes, length_leBytes]
  exact congrArg (1 + 8 + ·) (length_weightEntries _)

def CTemplateWeighted.InRange (t : CTemplateWeighted) : Prop :=
  t.nRequired < 256 ^ 1 ∧ ∀ kv ∈ t.mapPubKeyWeight.toList, kv.1 < 256 ^ 32 ∧ kv.2 < 256 ^ 1

theorem readWeights_append (l : List (ℕ × ℕ)) (m : OrdMap ℕ ℕ) (hsorted : OrdMap.Sorted (m.toList ++ l))
    (hl : ∀ kv ∈ l, kv.1 < 256 ^ 32 ∧ kv.2 < 256 ^ 1) (rest : List UInt8) :
    ∃ m', readWeights l.length ((l.map weightEntry).flatten ++ rest) m = .ok m' ∧ m'.toList = m.toList ++ l := by
  induction l generalizing m with
  | nil => exact ⟨m, rfl, (List.append_nil _).symm⟩
  | cons kv l ih =>
    have hlt : ∀ e ∈ m.toList, e.1 < kv.1 := fun e he =>
      (List.pairwise_append.1 hsorted).2.2 e he kv List.mem_cons_self
    have hnone : m.find? kv.1 = none := OrdMap.lookupList_of_not_mem fun e he => (hlt e he).ne
    have hlist := OrdMap.toList_insert_of_lt hlt kv.2
    obtain ⟨m', hread, hm'⟩ := ih (m.insert kv.1 kv.2) (by rw [hlist, List.append_assoc]; exact hsorted)
      fun e he => hl e (List.mem_cons_of_mem _ he)
    refine ⟨m', ?_, by rw [hm', hlist, List.append_assoc]; rfl⟩
    rw [List.length_cons, readWeights, List.map_cons, List.flatten_cons, List.append_assoc,
      show ((uint 32).pair (uint 1)).dec (weightEntry kv ++ _) = _ from
        ((uint 32).pair (uint 1)).dec_enc kv _ (hl kv List.mem_cons_self)]
    simp only [hnone, Option.isSome_none, Bool.false_eq_true, if_false]
    exact hread

variable {t : CTemplateWeighted} {bs : List UInt8}

theorem CTemplateWeighted.dec_enc (hrange : t.InRange)
    (hsize : t.mapPubKeyWeight.size < 256 ^ 8) (rest : List UInt8) : CTemplateWeighted.dec (t.enc ++ rest) = .ok t := by
  obtain ⟨m, hread, hm⟩ := readWeights_append t.mapPubKeyWeight.toList OrdMap.empty
    t.mapPubKeyWeight.sorted hrange.2 rest
  have henc : t.enc ++ rest = ((uint 1).pair (uint 8)).enc (t.nRequired, t.mapPubKeyWeight.size)
      ++ ((t.mapPubKeyWeight.toList.map weightEntry).flatten ++ rest) := by
    rw [CTemplateWeighted.enc, List.append_assoc]
    rfl
  have hvalid : ((uint 1).pair (uint 8)).Valid (t.nRequired, t.mapPubKeyWeight.size) := ⟨hrange.1, hsize⟩
  rw [henc, CTemplateWeighted.dec, ((uint 1).pair (uint 8)).dec_enc _ _ hvalid]
  simp only
  rw [show t.mapPubKeyWeight.size = t.mapPubKeyWeight.toList.length from rfl, hread]
  simp only
  rw [show m = t.mapPubKeyWeight from OrdMap.ext hm]

theorem eq_append_of_take_eq {bs x y : List UInt8} {n k : ℕ} (hx : x.length = n)
    (h : bs.take (n + k) = (x ++ y).take (n + k)) : bs = x ++ bs.drop n ∧ (bs.drop n).take k = y.take k := by
  rw [List.take_add (l := x ++ y), List.take_left' hx, List.drop_left' hx] at h
  have hlen : n ≤ bs.length := by
    have := congrArg List.length h
    rw [List.length_take, List.length_append] at this
    omega
  rw [List.take_add] at h
  obtain ⟨h1, h2⟩ := List.append_inj h (by rw [List.length_take, hx]; omega)
  exact ⟨by rw [← h1, List.take_append_drop], h2⟩

theorem readWeights_spec (n : ℕ) {m m' : OrdMap ℕ ℕ} (h : readWeights n bs m = .ok m') :
    m'.size = m.size + n ∧ 33 * n ≤ bs.length ∧
      (∀ bs', bs'.take (33 * n) = bs.take (33 * n) → readWeights n bs' m = .ok m') ∧
      ((∀ kv ∈ m.toList, ((uint 32).pair (uint 1)).Valid kv) →
        ∀ kv ∈ m'.toList, ((uint 32).pair (uint 1)).Valid kv) := by
  induction n generalizing bs m with
  | zero =>
    rw [readWeights] at h
    rw [Except.ok.inj h]
    exact ⟨rfl, Nat.zero_le _, fun _ _ => rfl, id⟩
  | succ n ih =>
    rw [readWeights] at h
    cases hdec : ((uint 32).pair (uint 1)).dec bs with
    | error e => simp [hdec] at h
    | ok r =>
      obtain ⟨kv, r⟩ := r
      obtain ⟨hkv, rfl⟩ := ((uint 32).pair (uint 1)).enc_dec _ _ _ hdec
      simp only [hdec] at h
      split_ifs at h with hsome
      have hnone : m.find? kv.1 = none := by simpa using hsome
      obtain ⟨hsize, hlen, hread, hvalid⟩ := ih h
      have hentry : (((uint 32).pair (uint 1)).enc kv).length = 33 := length_weightEntry kv
      have h33 : 33 * (n + 1) = 33 + 33 * n := by omega
      refine ⟨by rw [hsize, OrdMap.size_insert_of_none hnone]; omega,
        by rw [List.length_append, hentry]; omega, fun bs' htake => ?_, fun hm => hvalid fun e he => ?_⟩
      · rw [h33] at htake
        obtain ⟨hbs', hrest⟩ := eq_append_of_take_eq hentry htake
        rw [hbs', readWeights, ((uint 32).pair (uint 1)).dec_enc _ _ hkv]
        simp only [hnone, Option.isSome_none, Bool.false_eq_true, if_false]
        exact hread _ hrest
      · rw [← Prod.mk.eta (p := e), ← OrdMap.find?_eq_some, OrdMap.find?_insert] at he
        split_ifs at he with hkey
        · rw [← Prod.mk.eta (p := e), hkey, ← Option.some.inj he]
          exact hkv
        · exact hm e (OrdMap.find?_eq_some.1 he)

/-- **Reading a map of keys**: what is read is in range, and no byte behind the entries counts. -/
theorem CTemplateWeighted.dec_spec (h : CTemplateWeighted.dec bs = .ok t) :
    t.InRange ∧ ofLeBytes ((bs.drop 1).take 8) = t.mapPubKeyWeight.size ∧ t.enc.length ≤ bs.length ∧
      ∀ bs', bs'.take t.enc.length = bs.take t.enc.length → CTemplateWeighted.dec bs' = .ok t := by
  unfold CTemplateWeighted.dec at h
  cases hdec : ((uint 1).pair (uint 8)).dec bs with
  | error e => simp [hdec] at h
  | ok r =>
    obtain ⟨⟨nRequired, size⟩, r⟩ := r
    obtain ⟨hvalid, rfl⟩ := ((uint 1).pair (uint 8)).enc_dec _ _ _ hdec
    simp only [hdec] at h
    cases hread : readWeights size r OrdMap.empty with
    | error e => simp [hread] at h
    | ok m =>
      simp only [hread] at h
      obtain ⟨hsize, hlen, hagain, hrange⟩ := readWeights_spec size hread
      have hm : m.size = size := by rw [hsize]; exact Nat.zero_add _
      have hhead : (((uint 1).pair (uint 8)).enc (nRequired, size)).length = 9 := by
        simp [Codec.pair, Format.pair, Codec.uint]
      have henc : t.enc.length = 9 + 33 * size := by
        rw [CTemplateWeighted.length_enc, ← Except.ok.inj h]
        exact congrArg (9 + 33 * ·) hm
      refine ⟨?_, ?_, by rw [henc, List.length_append, hhead]; omega, fun bs' htake => ?_⟩
      · rw [← Except.ok.inj h]
        exact ⟨hvalid.1, hrange fun kv hkv => by cases hkv⟩
      · have hbytes : ((((uint 1).pair (uint 8)).enc (nRequired, size) ++ r).drop 1).take 8 = leBytes 8 size := by
          have hpair : ((uint 1).pair (uint 8)).enc (nRequired, size) = leBytes 1 nRequired ++ leBytes 8 size := rfl
          rw [hpair, List.append_assoc, List.drop_left' (length_leBytes 1 _), List.take_left' (length_leBytes 8 _)]
        rw [hbytes, ofLeBytes_leBytes, Nat.mod_eq_of_lt hvalid.2, ← Except.ok.inj h, hm]
      · rw [henc] at htake
        obtain ⟨hbs', hrest⟩ := eq_append_of_take_eq hhead htake
        rw [hbs', CTemplateWeighted.dec, ((uint 1).pair (uint 8)).dec_enc _ _ hvalid]
        simp only [hagain _ hrest]
        exact h

/-! ## Every template -/

def CTemplate.InRange : CTemplate → Prop
  | .weighted t => t.InRange
  | .multisig t => t.InRange
  | .proof t => CTemplateProof.codec.Valid t
  | .exchange t => CTemplateExchange.codec.Valid t
  | .dexorder t => CTemplateDexOrder.codec.Valid t
  | .dexmatch t => CTemplateDexMatch.codec.Valid t
  | .mintpledge t => CTemplateMintPledge.codec.Valid t
  | .mintredeem t => CTemplateMintRedeem.codec.Valid t

theorem readTemplate_append {α : Type} {c : Codec α} (f : α → CTemplate) {a : α} (ha : c.Valid a)
    (rest : List UInt8) : readTemplate c f (c.enc a ++ rest) = .ok (f a) := by
  rw [readTemplate, c.dec_enc a rest ha]

theorem inRange_of_setTemplateData {nType : ℕ} {vchData : List UInt8} {t : CTemplate}
    (h : CTemplate.setTemplateData nType vchData = some (.ok t)) : t.InRange := by
  have hread := (CTemplate.setTemplateData_ok h).2
  cases t with
  | weighted w => exact (CTemplateWeighted.dec_spec hread).1
  | multisig w => exact (CTemplateWeighted.dec_spec hread).1
  | _ =>
    obtain ⟨rest, hdec⟩ := hread
    exact (Codec.enc_dec _ _ _ _ hdec).1

theorem CTemplateWeighted.size_lt (hvalid : t.validateParam = true) : t.mapPubKeyWeight.size < 256 ^ 8 := by
  simp only [CTemplateWeighted.validateParam, Bool.and_eq_true, decide_eq_true_eq] at hvalid
  have hle : t.mapPubKeyWeight.size ≤ MAX_KEY_NUMBER := hvalid.1.1.2
  exact lt_of_le_of_lt hle (by decide)

theorem setTemplateData_append {t : CTemplate} (hrange : t.InRange) (hvalid : t.validateParam = true)
    (rest : List UInt8) : CTemplate.setTemplateData t.nType (t.buildTemplateData ++ rest) = some (.ok t) := by
  unfold CTemplate.setTemplateData
  cases t with
  | weighted w =>
    have hdec := CTemplateWeighted.dec_enc hrange (CTemplateWeighted.size_lt hvalid) rest
    exact congrArg (fun r => some (Except.map CTemplate.weighted r)) hdec
  | multisig w =>
    have hdec := CTemplateWeighted.dec_enc hrange (CTemplateWeighted.size_lt hvalid) rest
    exact congrArg (fun r => some (Except.map CTemplate.multisig r)) hdec
  | proof p => exact congrArg some (readTemplate_append _ hrange rest)
  | exchange x => exact congrArg some (readTemplate_append _ hrange rest)
  | dexorder o => exact congrArg some (readTemplate_append _ hrange rest)
  | dexmatch m => exact congrArg some (readTemplate_append _ hrange rest)
  | mintpledge p => exact congrArg some (readTemplate_append _ hrange rest)
  | mintredeem r => exact congrArg some (readTemplate_append _ hrange rest)

theorem createTemplatePtr_append {t : CTemplate} (hrange : t.InRange) (hvalid : t.validateParam = true)
    (rest : List UInt8) : createTemplatePtr t.nType (t.buildTemplateData ++ rest) = some (some t) :=
  createTemplatePtr_eq_some.2 ⟨setTemplateData_append hrange hvalid rest, hvalid⟩

/-- **Template data round trips in front of any signature.** `CreateTemplatePtr` reads a valid template back
with the same parameters and the same identifier, and what is left behind the data it writes again is what
stood there. -/
theorem createTemplatePtr_round_trip (E : Env) (t : CTemplate) (hrange : t.InRange)
    (hvalid : t.validateParam = true) (rest : List UInt8) :
    ∃ t', createTemplatePtr t.nType (t.buildTemplateData ++ rest) = some (some t') ∧ t' = t ∧
      t'.getTemplateId E = t.getTemplateId E ∧
      (t.buildTemplateData ++ rest).drop t'.buildTemplateData.length = rest :=
  ⟨t, createTemplatePtr_append hrange hvalid rest, rfl, rfl, List.drop_left⟩

def toyWeighted : CTemplateWeighted := ⟨1, (OrdMap.empty.insert 3 1).insert 5 1⟩

theorem toyWeighted_inRange : toyWeighted.InRange := ⟨by decide, by decide⟩

theorem createTemplatePtr_round_trip_toy :
    ∃ t', createTemplatePtr TEMPLATE_WEIGHTED ((CTemplate.weighted toyWeighted).buildTemplateData ++ [7])
        = some (some t') ∧ t' = .weighted toyWeighted ∧
      t'.getTemplateId toyEnv = (CTemplate.weighted toyWeighted).getTemplateId toyEnv ∧
      ((CTemplate.weighted toyWeighted).buildTemplateData ++ [7]).drop t'.buildTemplateData.length = [7] :=
  createTemplatePtr_round_trip toyEnv (.weighted toyWeighted) toyWeighted_inRange (by decide) [7]

end Minemon
