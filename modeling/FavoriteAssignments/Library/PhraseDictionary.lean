import Mathlib.Data.List.Basic
import Mathlib.Data.List.Induction
import Mathlib.Data.List.Nodup
import Mathlib.Logic.Function.Iterate

/-! # Greedy phrase dictionaries

A text is cut into phrases, each the longest word known so far and one symbol more.
Every phrase becomes a word, until the dictionary is full and starts again. Reading
the phrases back rebuilds the same dictionary, and with it the text. -/

namespace FavoriteAssignments.PhraseDictionary

variable {α : Type*}

/-! ## Dictionaries -/

/-- Words in the order in which they were learnt: the empty word first, no word twice,
and with each word the word it extends. -/
structure Dictionary (α : Type*) where
  words : List (List α)
  first : words[0]? = some []
  nodup : words.Nodup
  closed : ∀ w s, w ++ [s] ∈ words → w ∈ words

namespace Dictionary

/-- Only the empty word. -/
def fresh : Dictionary α where
  words := [[]]
  first := rfl
  nodup := by simp
  closed := by simp

theorem nil_mem (d : Dictionary α) : [] ∈ d.words := List.mem_of_getElem? d.first

theorem length_pos (d : Dictionary α) : 0 < d.words.length :=
  List.length_pos_of_mem d.nil_mem

theorem mem_of_append_mem (d : Dictionary α) {w v : List α} (h : w ++ v ∈ d.words) :
    w ∈ d.words := by
  induction v using List.reverseRecOn with
  | nil => rwa [List.append_nil] at h
  | append_singleton v s ih =>
      rw [← List.append_assoc] at h
      exact ih (d.closed _ s h)

def extend (d : Dictionary α) (w : List α) (s : α) (hw : w ∈ d.words)
    (hnew : w ++ [s] ∉ d.words) : Dictionary α where
  words := d.words ++ [w ++ [s]]
  first := by rw [List.getElem?_append_left d.length_pos, d.first]
  nodup := by
    refine List.nodup_append.mpr ⟨d.nodup, by simp, ?_⟩
    intro u hu v hv huv
    exact hnew (by simpa [← List.mem_singleton.mp hv, huv] using hu)
  closed := by
    intro u a hu
    rcases List.mem_append.mp hu with hold | hlast
    · exact List.mem_append_left _ (d.closed u a hold)
    · obtain ⟨rfl, -⟩ : u = w ∧ a = s := by simpa using hlast
      exact List.mem_append_left _ hw

/-- A full dictionary starts again. -/
def limit (cap : ℕ) (d : Dictionary α) : Dictionary α :=
  if d.words.length = cap then fresh else d

end Dictionary

/-- The words after learning one more. -/
def learn (cap : ℕ) (words : List (List α)) (w : List α) : List (List α) :=
  if words.length + 1 = cap then [[]] else words ++ [w]

theorem limit_extend_words (cap : ℕ) (d : Dictionary α) (w : List α) (s : α)
    (hw : w ∈ d.words) (hnew : w ++ [s] ∉ d.words) :
    ((d.extend w s hw hnew).limit cap).words = learn cap d.words (w ++ [s]) := by
  unfold Dictionary.limit learn
  by_cases h : d.words.length + 1 = cap <;> simp [Dictionary.extend, Dictionary.fresh, h]

/-- The number of words after learning one more. -/
def nextLength (cap k : ℕ) : ℕ := if k + 1 = cap then 1 else k + 1

theorem learn_length (cap : ℕ) (words : List (List α)) (w : List α) :
    (learn cap words w).length = nextLength cap words.length := by
  unfold learn nextLength
  split <;> simp

/-- The number of words runs through `1, …, cap - 1` and starts again. -/
theorem nextLength_iterate {cap : ℕ} (hcap : 2 ≤ cap) (n : ℕ) :
    (nextLength cap)^[n] 1 = 1 + n % (cap - 1) := by
  obtain ⟨m, rfl⟩ : ∃ m, cap = m + 2 := ⟨cap - 2, by omega⟩
  rw [show m + 2 - 1 = m + 1 from rfl]
  induction n with
  | zero => simp
  | succ n ih =>
      rw [Function.iterate_succ_apply', ih, nextLength]
      have hlt : n % (m + 1) < m + 1 := Nat.mod_lt _ (Nat.succ_pos m)
      have hmod : (n + 1) % (m + 1) = (n % (m + 1) + 1) % (m + 1) :=
        Nat.add_mod_eq_add_mod_right 1 (Nat.mod_mod n (m + 1)).symm
      by_cases hlast : n % (m + 1) = m
      · rw [if_pos (by omega), hmod, hlast, Nat.mod_self]
      · have hsucc : (n % (m + 1) + 1) % (m + 1) = n % (m + 1) + 1 :=
          Nat.mod_eq_of_lt (by omega)
        rw [if_neg (by omega), hmod, hsucc]
        omega

/-! ## Cutting a text into phrases -/

variable [DecidableEq α]

/-- A parser between two symbols: the word it has recognised since the last phrase. -/
structure Parser (α : Type*) where
  dict : Dictionary α
  current : List α
  known : current ∈ dict.words

namespace Parser

def start : Parser α := ⟨.fresh, [], by simp [Dictionary.fresh]⟩

/-- One symbol, with the phrase it completes: the place of a word and a symbol. -/
def step (cap : ℕ) (p : Parser α) (s : α) : Parser α × List (ℕ × α) :=
  if h : p.current ++ [s] ∈ p.dict.words then (⟨p.dict, p.current ++ [s], h⟩, [])
  else
    (⟨(p.dict.extend p.current s p.known h).limit cap, [], Dictionary.nil_mem _⟩,
      [(p.dict.words.idxOf p.current, s)])

def feed (cap : ℕ) (p : Parser α) : List α → Parser α × List (ℕ × α)
  | [] => (p, [])
  | s :: text =>
      let next := p.step cap s
      let rest := next.1.feed cap text
      (rest.1, next.2 ++ rest.2)

/-- At the end of the text the word recognised so far is a phrase of its own. -/
def pending (p : Parser α) : List (ℕ × α) :=
  match p.current.getLast? with
  | none => []
  | some s => [(p.dict.words.idxOf p.current.dropLast, s)]

end Parser

def phrases (cap : ℕ) (text : List α) : List (ℕ × α) :=
  let fed := Parser.start.feed cap text
  fed.2 ++ fed.1.pending

theorem pending_length (p : Parser α) :
    p.pending.length = if p.current = [] then 0 else 1 := by
  unfold Parser.pending
  cases hlast : p.current.getLast? with
  | none => simp [List.getLast?_eq_none_iff.mp hlast]
  | some s =>
      have hne : p.current ≠ [] := by
        intro hnil
        simp [hnil] at hlast
      simp [hne]

theorem step_length (cap : ℕ) (p : Parser α) (s : α) :
    (p.step cap s).1.dict.words.length =
      (nextLength cap)^[(p.step cap s).2.length] p.dict.words.length := by
  unfold Parser.step
  split
  · rfl
  · simp [limit_extend_words, learn_length]

theorem feed_length (cap : ℕ) (p : Parser α) (text : List α) :
    (p.feed cap text).1.dict.words.length =
      (nextLength cap)^[(p.feed cap text).2.length] p.dict.words.length := by
  induction text generalizing p with
  | nil => rfl
  | cons s text ih =>
      rw [Parser.feed, ih, step_length, List.length_append, Nat.add_comm,
        Function.iterate_add_apply]

theorem idxOf_nil (d : Dictionary α) : d.words.idxOf [] = 0 := by
  obtain ⟨hlt, hfirst⟩ := List.getElem?_eq_some_iff.mp d.first
  rw [← hfirst, d.nodup.idxOf_getElem]

theorem feed_append (cap : ℕ) (p : Parser α) (text more : List α) :
    p.feed cap (text ++ more) = (((p.feed cap text).1.feed cap more).1,
      (p.feed cap text).2 ++ ((p.feed cap text).1.feed cap more).2) := by
  induction text generalizing p with
  | nil => rfl
  | cons s text ih =>
      rw [List.cons_append, Parser.feed, ih, Parser.feed]
      simp only [List.append_assoc]

/-- A text that goes on inside a word completes no phrase. -/
theorem feed_known (cap : ℕ) {p : Parser α} {text : List α}
    (h : p.current ++ text ∈ p.dict.words) :
    (p.feed cap text).1.dict = p.dict ∧ (p.feed cap text).1.current = p.current ++ text ∧
      (p.feed cap text).2 = [] := by
  induction text generalizing p with
  | nil => exact ⟨rfl, (List.append_nil _).symm, rfl⟩
  | cons s text ih =>
      rw [List.append_cons] at h
      have hstep : p.step cap s = (⟨p.dict, p.current ++ [s], p.dict.mem_of_append_mem h⟩, []) :=
        dif_pos _
      obtain ⟨hdict, hcurrent, hphrases⟩ :=
        ih (p := ⟨p.dict, p.current ++ [s], p.dict.mem_of_append_mem h⟩) h
      rw [Parser.feed, hstep]
      refine ⟨hdict, ?_, hphrases⟩
      rw [hcurrent, List.append_assoc]
      rfl

/-- A known word and a symbol that make a new word are a phrase. -/
theorem feed_word (cap : ℕ) {p : Parser α} {w : List α} {s : α} (hcurrent : p.current = [])
    (hknown : w ∈ p.dict.words) (hnew : w ++ [s] ∉ p.dict.words) :
    (p.feed cap (w ++ [s])).2 = [(p.dict.words.idxOf w, s)] ∧
      (p.feed cap (w ++ [s])).1.current = [] ∧
      (p.feed cap (w ++ [s])).1.dict.words = learn cap p.dict.words (w ++ [s]) := by
  have hinside : p.current ++ w ∈ p.dict.words := by rwa [hcurrent]
  obtain ⟨hdict, hword, hphrases⟩ := feed_known cap hinside
  rw [hcurrent, List.nil_append] at hword
  have hunknown : (p.feed cap w).1.current ++ [s] ∉ (p.feed cap w).1.dict.words := by
    rwa [hdict, hword]
  rw [feed_append, hphrases, Parser.feed, Parser.step, dif_neg hunknown]
  simp only [Parser.feed, limit_extend_words, hdict, hword, List.append_nil, List.nil_append,
    and_self]

/-- New words, none of them twice and each a known word and a symbol, are phrases of their
own. -/
theorem feed_words {cap : ℕ} {p : Parser α} {ws : List (List α × α)} (hcurrent : p.current = [])
    (hknown : ∀ w ∈ ws, w.1 ∈ p.dict.words) (hnew : ∀ w ∈ ws, w.1 ++ [w.2] ∉ p.dict.words)
    (hnodup : (ws.map fun w => w.1 ++ [w.2]).Nodup)
    (hroom : p.dict.words.length + ws.length < cap) :
    (p.feed cap (ws.flatMap fun w => w.1 ++ [w.2])).2 =
        ws.map (fun w => (p.dict.words.idxOf w.1, w.2)) ∧
      (p.feed cap (ws.flatMap fun w => w.1 ++ [w.2])).1.current = [] ∧
      (p.feed cap (ws.flatMap fun w => w.1 ++ [w.2])).1.dict.words =
        p.dict.words ++ ws.map fun w => w.1 ++ [w.2] := by
  induction ws generalizing p with
  | nil => exact ⟨rfl, hcurrent, (List.append_nil _).symm⟩
  | cons w ws ih =>
      obtain ⟨hphrase, hnext, hwords⟩ := feed_word cap hcurrent (hknown w List.mem_cons_self)
        (hnew w List.mem_cons_self)
      rw [List.length_cons] at hroom
      rw [learn, if_neg (by omega)] at hwords
      rw [List.map_cons, List.nodup_cons] at hnodup
      have hold : ∀ v ∈ ws, v.1 ∈ p.dict.words := fun v hv => hknown v (List.mem_cons_of_mem w hv)
      have hlater : ∀ v ∈ ws, v.1 ++ [v.2] ∉ (p.feed cap (w.1 ++ [w.2])).1.dict.words := by
        intro v hv
        have hne : v.1 ++ [v.2] ≠ w.1 ++ [w.2] := by
          intro heq
          exact hnodup.1 (heq ▸ List.mem_map_of_mem hv)
        rw [hwords, List.mem_append, List.mem_singleton]
        exact not_or.mpr ⟨hnew v (List.mem_cons_of_mem w hv), hne⟩
      obtain ⟨hphrases, hlast, hall⟩ := ih hnext
        (fun v hv => hwords ▸ List.mem_append_left _ (hold v hv)) hlater hnodup.2
        (by rw [hwords, List.length_append, List.length_singleton]; omega)
      have hplaces : ws.map (fun v => ((p.dict.words ++ [w.1 ++ [w.2]]).idxOf v.1, v.2)) =
          ws.map fun v => (p.dict.words.idxOf v.1, v.2) :=
        List.map_congr_left fun v hv => by rw [List.idxOf_append_of_mem (hold v hv)]
      rw [hwords, hplaces] at hphrases
      rw [hwords, List.append_assoc] at hall
      rw [List.flatMap_cons, feed_append, hphrase, hphrases]
      exact ⟨rfl, hlast, hall⟩

theorem phrases_cons (cap : ℕ) (s : α) (text : List α) :
    ∃ rest, phrases cap (s :: text) = (0, s) :: rest := by
  have hnew : [] ++ [s] ∉ (Parser.start (α := α)).dict.words := by
    simp [Parser.start, Dictionary.fresh]
  obtain ⟨hphrase, -, -⟩ := feed_word cap (p := .start) rfl (Dictionary.nil_mem _) hnew
  rw [idxOf_nil, List.nil_append] at hphrase
  refine ⟨(Parser.feed cap (Parser.start.feed cap [s]).1 text).2 ++
    (Parser.feed cap (Parser.start.feed cap [s]).1 text).1.pending, ?_⟩
  rw [phrases, ← List.singleton_append, feed_append, hphrase]
  rfl

/-- New symbols, none of them twice, are phrases of their own. -/
theorem feed_distinct {cap : ℕ} {text : List α} (hnodup : text.Nodup)
    (hroom : text.length + 1 < cap) :
    (Parser.start.feed cap text).2 = text.map (fun s => (0, s)) ∧
      (Parser.start.feed cap text).1.current = [] ∧
      (Parser.start.feed cap text).1.dict.words = [] :: text.map fun s => [s] := by
  have hflat : (text.map fun s => (([] : List α), s)).flatMap (fun w => w.1 ++ [w.2]) = text := by
    simp [List.flatMap_map]
  have hknown : ∀ w ∈ text.map fun s => (([] : List α), s), w.1 ∈ Parser.start.dict.words := by
    simp [Parser.start, Dictionary.fresh]
  have hnew : ∀ w ∈ text.map fun s => (([] : List α), s),
      w.1 ++ [w.2] ∉ Parser.start.dict.words := by
    simp [Parser.start, Dictionary.fresh]
  have hwords := feed_words rfl hknown hnew
    (by simpa [Function.comp_def] using hnodup.map List.singleton_injective)
    (by simpa [Parser.start, Dictionary.fresh, Nat.add_comm] using hroom)
  rw [hflat, List.map_map, List.map_map] at hwords
  simpa [Parser.start, Dictionary.fresh, Function.comp_def] using hwords

theorem phrases_distinct (cap : ℕ) {text : List α} (hnodup : text.Nodup)
    (hroom : text.length + 1 < cap) : phrases cap text = text.map fun s => (0, s) := by
  obtain ⟨hphrases, hcurrent, -⟩ := feed_distinct hnodup hroom
  rw [phrases, hphrases, Parser.pending, hcurrent]
  simp

/-! ## Reading phrases back -/

def unstep (cap : ℕ) (words : List (List α)) (phrase : ℕ × α) :
    Option (List (List α) × List α) :=
  words[phrase.1]?.map fun w => (learn cap words (w ++ [phrase.2]), w ++ [phrase.2])

/-- The words and the text after a list of phrases. -/
def unparse (cap : ℕ) (words : List (List α)) :
    List (ℕ × α) → Option (List (List α) × List α)
  | [] => some (words, [])
  | phrase :: rest =>
      match unstep cap words phrase with
      | none => none
      | some (words', w) => (unparse cap words' rest).map fun r => (r.1, w ++ r.2)

section Unparse

omit [DecidableEq α]

variable {cap : ℕ} {words words' mid : List (List α)} {phrase : ℕ × α} {ps q : List (ℕ × α)}
  {u text : List α}

theorem unstep_eq (h : words[phrase.1]? = some u) :
    unstep cap words phrase = some (learn cap words (u ++ [phrase.2]), u ++ [phrase.2]) := by
  rw [unstep, h, Option.map_some]

theorem unparse_nil_eq_some : unparse cap words [] = some (words', text) ↔
    words = words' ∧ [] = text := by
  simp [unparse]

/-- The first phrase stands for a known word, the others are read with its word learnt. -/
theorem unparse_cons_eq_some : unparse cap words (phrase :: ps) = some (words', text) ↔
    ∃ u rest, words[phrase.1]? = some u ∧
      unparse cap (learn cap words (u ++ [phrase.2])) ps = some (words', rest) ∧
      (u ++ [phrase.2]) ++ rest = text := by
  cases hword : words[phrase.1]? with
  | none => simp [unparse, unstep, hword]
  | some u => simp [unparse, unstep_eq hword, Prod.ext_iff, Option.map_eq_some_iff]

theorem unparse_append (h : unparse cap words ps = some (mid, text)) :
    unparse cap words (ps ++ q) =
      (unparse cap mid q).map fun r => (r.1, text ++ r.2) := by
  induction ps generalizing words text with
  | nil =>
      obtain ⟨rfl, rfl⟩ := unparse_nil_eq_some.mp h
      simp
  | cons phrase ps ih =>
      obtain ⟨u, rest, hword, hrest, rfl⟩ := unparse_cons_eq_some.mp h
      simp [unparse, unstep_eq hword, ih hrest, Option.map_map, Function.comp_def]

theorem unparse_length (h : unparse cap words ps = some (words', text)) :
    words'.length = (nextLength cap)^[ps.length] words.length := by
  induction ps generalizing words text with
  | nil =>
      obtain ⟨rfl, -⟩ := unparse_nil_eq_some.mp h
      rfl
  | cons phrase ps ih =>
      obtain ⟨u, rest, -, hrest, -⟩ := unparse_cons_eq_some.mp h
      rw [ih hrest, learn_length, List.length_cons, Function.iterate_succ_apply]

end Unparse

theorem idxOf_getElem? {words : List (List α)} {w : List α} (h : w ∈ words) :
    words[words.idxOf w]? = some w := by
  rw [List.getElem?_eq_getElem (List.idxOf_lt_length_of_mem h), List.getElem_idxOf]

/-- What one symbol adds is what reading its phrase back adds. -/
theorem step_unparse (cap : ℕ) (p : Parser α) (s : α) :
    ∃ text, unparse cap p.dict.words (p.step cap s).2 = some ((p.step cap s).1.dict.words, text) ∧
      p.current ++ [s] = text ++ (p.step cap s).1.current := by
  unfold Parser.step
  split
  · exact ⟨[], rfl, rfl⟩
  · next hnew =>
      refine ⟨p.current ++ [s], ?_, by simp⟩
      simp [unparse, unstep, idxOf_getElem? p.known, limit_extend_words]

theorem feed_unparse (cap : ℕ) (p : Parser α) (text : List α) :
    ∃ done, unparse cap p.dict.words (p.feed cap text).2 =
        some ((p.feed cap text).1.dict.words, done) ∧
      p.current ++ text = done ++ (p.feed cap text).1.current := by
  induction text generalizing p with
  | nil => exact ⟨[], rfl, by simp [Parser.feed]⟩
  | cons s text ih =>
      obtain ⟨first, hfirst, hcurrent⟩ := step_unparse cap p s
      obtain ⟨rest, hrest, htail⟩ := ih (p.step cap s).1
      refine ⟨first ++ rest, ?_, ?_⟩
      · simp [Parser.feed, unparse_append hfirst, hrest]
      · calc p.current ++ s :: text = (p.current ++ [s]) ++ text := by simp
          _ = first ++ ((p.step cap s).1.current ++ text) := by rw [hcurrent, List.append_assoc]
          _ = (first ++ rest) ++ (Parser.feed cap p (s :: text)).1.current := by
            rw [htail, List.append_assoc]
            rfl

/-- Reading back the pending phrase learns the unfinished word. -/
theorem pending_unparse (cap : ℕ) (p : Parser α) :
    unparse cap p.dict.words p.pending =
      some (if p.current = [] then p.dict.words else learn cap p.dict.words p.current,
        p.current) := by
  unfold Parser.pending
  cases hlast : p.current.getLast? with
  | none => simp [unparse, List.getLast?_eq_none_iff.mp hlast]
  | some s =>
      have hsplit : p.current.dropLast ++ [s] = p.current :=
        List.dropLast_append_getLast? s hlast
      have hmem : p.current.dropLast ∈ p.dict.words :=
        p.dict.closed _ s (by rw [hsplit]; exact p.known)
      have hne : p.current ≠ [] := by
        intro hnil
        simp [hnil] at hlast
      simp [unparse, unstep, idxOf_getElem? hmem, hsplit, hne]

/-- Reading back the phrases of a text gives the text. -/
theorem unparse_phrases (cap : ℕ) (text : List α) :
    unparse cap [[]] (phrases cap text) =
      some (let p := (Parser.start.feed cap text).1
        if p.current = [] then p.dict.words else learn cap p.dict.words p.current, text) := by
  obtain ⟨done, hdone, htext⟩ := feed_unparse cap Parser.start text
  have hall : text = done ++ (Parser.start.feed cap text).1.current := htext
  have happend := unparse_append (q := (Parser.start.feed cap text).1.pending) hdone
  rw [pending_unparse, Option.map_some, ← hall] at happend
  exact happend

end FavoriteAssignments.PhraseDictionary
