/-
This file compares the pairs that the three ways of loading a text add to a hash table.
-/

import Neosurf.Construction.Hashtable
import Neosurf.Proof.Bytes
import Neosurf.ToMathlib.SplitOn

namespace Neosurf.Hashtable

open List (terminated unfinished Reached)

variable {data file s line : Bytes} {added : List (Bytes × Bytes)} {loaded : Loaded}

def Accepted (ln : Bytes) : Prop := ∃ pair, processLine ln = .ok pair

/-- These are the pairs of lines, up to the first one that is refused. -/
def readPairs : List Bytes → List (Bytes × Bytes)
  | [] => []
  | ln :: lines =>
      match processLine ln with
      | .error _ => []
      | .ok pair => pair.toList ++ readPairs lines

theorem readPairs_cons {ln : Bytes} {lines : List Bytes} {pair : Option (Bytes × Bytes)}
    (accepted : processLine ln = .ok pair) :
    readPairs (ln :: lines) = pair.toList ++ readPairs lines := by
  rw [readPairs, accepted]

theorem readPairs_refused {ln : Bytes} {lines : List Bytes} {res : Nserror}
    (refused : processLine ln = .error res) : readPairs (ln :: lines) = [] := by
  rw [readPairs, refused]

theorem readPairs_append_accepted {a b : List Bytes} (all : ∀ ln ∈ a, Accepted ln) :
    readPairs (a ++ b) = readPairs a ++ readPairs b := by
  induction a with
  | nil => rfl
  | cons ln a inductionHypothesis =>
      obtain ⟨⟨pair, accepted⟩, later⟩ := List.forall_mem_cons.1 all
      rw [List.cons_append, readPairs_cons accepted, readPairs_cons accepted,
        inductionHypothesis later, List.append_assoc]

/-- Nothing is read behind a line that is refused. -/
theorem readPairs_append_refused {a b : List Bytes} (some_refused : ¬ ∀ ln ∈ a, Accepted ln) :
    readPairs (a ++ b) = readPairs a := by
  induction a with
  | nil => exact absurd (by simp) some_refused
  | cons ln a inductionHypothesis =>
      rw [List.cons_append]
      cases answer : processLine ln with
      | error => rw [readPairs_refused answer, readPairs_refused answer]
      | ok pair =>
          rw [List.forall_mem_cons, not_and] at some_refused
          rw [readPairs_cons answer, readPairs_cons answer,
            inductionHypothesis (some_refused ⟨pair, answer⟩)]

theorem accepted_of_ok {ln : Bytes} {pair : Option (Bytes × Bytes)}
    (accepted : processLine ln = .ok pair) : Accepted ln := ⟨pair, accepted⟩

theorem not_accepted {ln : Bytes} {res : Nserror} (refused : processLine ln = .error res) :
    ¬ Accepted ln := by
  rintro ⟨pair, accepted⟩
  rw [refused] at accepted
  cases accepted

section Plain

/-- The plain path stays in its buffer exactly when every line that it comes to fits. -/
theorem plainLoop_isSome_iff (onLine : LF ∉ s) :
    (plainLoop data s added).isSome ↔
      ∀ ln, Reached Accepted ((s ++ data).splitOn LF) ln → ln.length < LINE_BUFFER_SIZE := by
  induction data generalizing s added with
  | nil =>
      rw [List.append_nil, List.splitOn_eq_singleton onLine, plainLoop]
      simp only [List.reached_cons, List.not_reached_nil, and_false, or_false, forall_eq]
      split
      next empty => simp [empty, LINE_BUFFER_SIZE]
      next =>
          split
          next long => simp [long]
          next short =>
              rw [Nat.not_le] at short
              split <;> simp [short]
  | cons c data inductionHypothesis =>
      rw [plainLoop]
      split
      next long =>
          refine iff_of_false (by simp) ?_
          intro fits
          obtain ⟨more, parts, lines⟩ := List.exists_splitOn_append onLine (c :: data)
          rw [lines] at fits
          have first := fits _ (List.reached_cons.2 (.inl rfl))
          rw [List.length_append] at first
          omega
      next short =>
          split
          next ends =>
              rw [ends, List.splitOn_append_cons_self_of_not_mem onLine]
              simp only [List.reached_cons, forall_eq_or_imp, Nat.lt_of_not_le short, true_and]
              split
              next refused => simp [not_accepted refused]
              next accepted =>
                  rw [inductionHypothesis List.not_mem_nil]
                  simp [accepted_of_ok accepted]
          next goes =>
              rw [if_neg (by omega), inductionHypothesis (by simp [onLine, Ne.symm goes])]
              simp

/-- The plain path reads every line, the unfinished one too. -/
theorem plainLoop_added (onLine : LF ∉ s) (done : plainLoop data s added = some loaded) :
    loaded.added = added ++ readPairs ((s ++ data).splitOn LF) := by
  induction data generalizing s added with
  | nil =>
      rw [List.append_nil, List.splitOn_eq_singleton onLine]
      rw [plainLoop] at done
      split at done
      next empty =>
          obtain rfl := Option.some.inj done
          rw [List.length_eq_zero_iff] at empty
          rw [empty]
          exact (List.append_nil _).symm
      next =>
          split at done
          next => cases done
          next =>
              split at done
              next refused =>
                  obtain rfl := Option.some.inj done
                  rw [readPairs_refused refused, List.append_nil]
              next accepted =>
                  obtain rfl := Option.some.inj done
                  rw [readPairs_cons accepted, readPairs, List.append_nil]
  | cons c data inductionHypothesis =>
      rw [plainLoop] at done
      split at done
      next => cases done
      next =>
          split at done
          next ends =>
              rw [ends, List.splitOn_append_cons_self_of_not_mem onLine]
              split at done
              next refused =>
                  obtain rfl := Option.some.inj done
                  rw [readPairs_refused refused, List.append_nil]
              next accepted =>
                  rw [inductionHypothesis List.not_mem_nil done, readPairs_cons accepted,
                    List.append_assoc, List.nil_append]
          next goes =>
              rw [if_neg (by omega)] at done
              rw [inductionHypothesis (by simp [onLine, Ne.symm goes]) done]
              simp

end Plain

section Gzip

variable {inflate : Inflate}

/-- What the loop over the buffer leaves is no longer than the buffer. -/
theorem drain_length {line s rest : Bytes} {added now : List (Bytes × Bytes)}
    (left : drain line s added = .rest rest now) : rest.length ≤ line.length + s.length := by
  induction s generalizing line added with
  | nil =>
      rw [drain, Drained.rest.injEq] at left
      rw [← left.1]
      exact Nat.le_add_right _ _
  | cons c s inductionHypothesis =>
      rw [drain] at left
      rw [List.length_cons]
      split at left
      next =>
          split at left
          next => cases left
          next =>
              have shorter := inductionHypothesis left
              rw [List.length_nil] at shorter
              omega
      next =>
          have shorter := inductionHypothesis left
          rw [List.length_append, List.length_singleton] at shorter
          omega

/-- The compressed path stays in its buffer and ends. -/
theorem gzipLoop_isSome {rounds : Nat} {left : Bytes} (enough : left.length < rounds)
    (room : s.length < LINE_BUFFER_SIZE) : (gzipLoop inflate rounds left s added).isSome := by
  induction rounds generalizing left s added with
  | zero => omega
  | succ rounds inductionHypothesis =>
      have fits := inflate.fits left (LINE_BUFFER_SIZE - s.length)
      rw [gzipLoop]
      dsimp only
      rw [if_neg (by omega)]
      split
      next => rfl
      next rest now drained =>
          split
          next => rfl
          next more =>
              have brought := inflate.progress left _ (Nat.sub_pos_of_lt room)
                (Bool.eq_false_of_not_eq_true more)
              have available := inflate.available left (LINE_BUFFER_SIZE - s.length)
              apply inductionHypothesis
              · rw [List.length_drop]
                omega
              · have shorter := drain_length drained
                rw [List.length_append, List.length_take, List.length_nil] at shorter
                split
                next => decide
                next => omega

/-- The loop over the buffer reads its lines and leaves the unfinished one. -/
theorem drain_rest {line s rest : Bytes} {added now : List (Bytes × Bytes)} (onLine : LF ∉ line)
    (left : drain line s added = .rest rest now) :
    rest = unfinished LF (line ++ s) ∧ now = added ++ readPairs (terminated LF (line ++ s)) ∧
      ∀ ln ∈ terminated LF (line ++ s), Accepted ln := by
  induction s generalizing line added with
  | nil =>
      rw [drain, Drained.rest.injEq] at left
      obtain ⟨rfl, rfl⟩ := left
      simp [onLine, readPairs]
  | cons c s inductionHypothesis =>
      rw [drain] at left
      split at left
      next ends =>
          split at left
          next => cases left
          next accepted =>
              obtain ⟨same, read, all⟩ := inductionHypothesis List.not_mem_nil left
              rw [List.nil_append] at same read all
              simpa [ends, onLine, same, read, readPairs_cons accepted, accepted_of_ok accepted]
                using all
      next goes =>
          have later := inductionHypothesis (by simp [onLine, Ne.symm goes]) left
          rw [List.append_assoc, List.singleton_append] at later
          exact later

/-- A line that is refused is one of the lines in the buffer. -/
theorem drain_refused {line s : Bytes} {added : List (Bytes × Bytes)} (onLine : LF ∉ line)
    (refused : drain line s added = .refused loaded) :
    loaded.added = added ++ readPairs (terminated LF (line ++ s)) ∧
      ¬ ∀ ln ∈ terminated LF (line ++ s), Accepted ln := by
  induction s generalizing line added with
  | nil => cases refused
  | cons c s inductionHypothesis =>
      rw [drain] at refused
      split at refused
      next ends =>
          split at refused
          next failed =>
              obtain rfl := Drained.refused.inj refused
              simp [ends, onLine, readPairs_refused failed, not_accepted failed]
          next accepted =>
              obtain ⟨read, some_refused⟩ := inductionHypothesis List.not_mem_nil refused
              rw [List.nil_append] at read some_refused
              simpa [ends, onLine, read, readPairs_cons accepted, accepted_of_ok accepted]
                using some_refused
      next goes =>
          have later := inductionHypothesis (by simp [onLine, Ne.symm goes]) refused
          rw [List.append_assoc, List.singleton_append] at later
          exact later

/-- The lines fit into the buffer, each with its newline. -/
structure Short (content : Bytes) : Prop where
  lines : ∀ ln ∈ terminated LF content, ln.length + 1 < LINE_BUFFER_SIZE
  last : (unfinished LF content).length < LINE_BUFFER_SIZE

theorem Short.unfinished {a b : Bytes} (short : Short (a ++ b)) : Short (unfinished LF a ++ b) := by
  obtain ⟨lines, last⟩ := short
  rw [List.terminated_append] at lines
  rw [List.unfinished_append] at last
  exact ⟨fun ln inside => lines ln (List.mem_append_right _ inside), last⟩

/-- The start of a short line is short. -/
theorem Short.start {a b : Bytes} (short : Short (a ++ b)) (onLine : LF ∉ a) :
    a.length < LINE_BUFFER_SIZE := by
  obtain ⟨more, parts, lines⟩ := List.exists_splitOn_append onLine b
  have first : a ++ more ∈ terminated LF (a ++ b) ++ [List.unfinished LF (a ++ b)] := by
    rw [← List.splitOn_eq_terminated, lines]
    exact List.mem_cons_self
  have fits : (a ++ more).length < LINE_BUFFER_SIZE := by
    rw [List.mem_append, List.mem_singleton] at first
    rcases first with inside | last
    · exact Nat.lt_of_succ_lt (short.lines _ inside)
    · rw [last]
      exact short.last
  rw [List.length_append] at fits
  omega

/-- The compressed path reads the short lines that end. -/
theorem gzipLoop_added {rounds : Nat} {left : Bytes} (short : Short (s ++ left)) (onLine : LF ∉ s)
    (done : gzipLoop inflate rounds left s added = some loaded) :
    loaded.added = added ++ readPairs (terminated LF (s ++ left)) := by
  induction rounds generalizing left s added with
  | zero => cases done
  | succ rounds inductionHypothesis =>
      rw [gzipLoop] at done
      dsimp only at done
      split at done
      next => cases done
      next =>
          set delivered := inflate.delivered left (LINE_BUFFER_SIZE - s.length)
          have cut : s ++ left = s ++ left.take delivered ++ left.drop delivered := by
            rw [List.append_assoc, List.take_append_drop]
          rw [cut, List.terminated_append]
          rw [cut] at short
          split at done
          next refused =>
              obtain ⟨read, some_refused⟩ := drain_refused List.not_mem_nil refused
              obtain rfl := Option.some.inj done
              rw [List.nil_append] at read some_refused
              rw [readPairs_append_refused some_refused, read]
          next rest now drained =>
              obtain ⟨rfl, rfl, all⟩ := drain_rest List.not_mem_nil drained
              rw [List.nil_append] at all done
              rw [readPairs_append_accepted all]
              have clear := List.not_mem_unfinished LF (s ++ left.take delivered)
              split at done
              next ended =>
                  have whole := inflate.complete _ _ ended
                  obtain rfl := Option.some.inj done
                  rw [List.drop_eq_nil_of_le whole.ge, List.append_nil,
                    List.terminated_of_not_mem clear]
                  simp [readPairs]
              next =>
                  rw [if_neg (short.unfinished.start clear).ne] at done
                  rw [inductionHypothesis short.unfinished clear done, List.append_assoc]

end Gzip

section File

/-- These are the texts that `gzgets` reads. -/
def pieces : Nat → Bytes → List Bytes
  | 0, _ => []
  | rounds + 1, file =>
      match fgets LINE_BUFFER_SIZE file with
      | none => []
      | some (s, file) => s :: pieces rounds file

/-- The path over a file stays in its buffer exactly when no text that it comes to starts with a
NUL. -/
theorem fileLoop_isSome_iff (rounds : Nat) (file : Bytes) (added : List (Bytes × Bytes)) :
    (fileLoop rounds file added).isSome ↔
      ∀ piece, Reached (fun piece => Accepted (chomp piece)) (pieces rounds file) piece →
        cstr piece ≠ [] := by
  induction rounds generalizing file added with
  | zero => simp [fileLoop, pieces]
  | succ rounds inductionHypothesis =>
      rw [fileLoop, pieces]
      cases read : fgets LINE_BUFFER_SIZE file with
      | none => simp
      | some line =>
          obtain ⟨piece, file⟩ := line
          simp only [List.reached_cons, forall_eq_or_imp, List.length_eq_zero_iff]
          split
          next empty => simp [empty]
          next nonempty =>
              cases answer : processLine (chomp piece) with
              | error => simp [nonempty, not_accepted answer]
              | ok => simp [nonempty, accepted_of_ok answer, inductionHypothesis]

theorem splitLine_unfinished {size : Nat} {text : Bytes} (onLine : LF ∉ text)
    (fits : text.length ≤ size) : splitLine size text = (text, []) := by
  induction text generalizing size with
  | nil => cases size <;> rfl
  | cons c text inductionHypothesis =>
      cases size with
      | zero => simp at fits
      | succ size =>
          rw [List.mem_cons, not_or] at onLine
          rw [splitLine, if_neg (Ne.symm onLine.1),
            inductionHypothesis onLine.2 (Nat.le_of_succ_le_succ fits)]

theorem fileLoop_nil (rounds : Nat) : fileLoop rounds [] added = some { added } := by
  cases rounds <;> rfl

/-- The path over a file reads the short lines, and of the unfinished one all but its last
character. -/
theorem fileLoop_added {rounds : Nat} (short : Short file) (text : 0 ∉ file)
    (enough : file.length ≤ rounds) (done : fileLoop rounds file added = some loaded) :
    loaded.added = added ++ readPairs (terminated LF file ++ [(unfinished LF file).dropLast]) := by
  induction file using List.line_induction LF generalizing rounds added with
  | unfinished file onLine =>
      rw [List.terminated_of_not_mem onLine, List.unfinished_of_not_mem onLine, List.nil_append]
      have last := short.last
      rw [List.unfinished_of_not_mem onLine] at last
      by_cases empty : file = []
      · rw [empty, fileLoop_nil] at done
        obtain rfl := Option.some.inj done
        rw [empty]
        exact (List.append_nil _).symm
      · cases rounds with
        | zero => exact absurd (List.length_eq_zero_iff.1 (Nat.le_zero.1 enough)) empty
        | succ rounds =>
            rw [fileLoop, fgets, if_neg empty, splitLine_unfinished onLine (by omega)] at done
            dsimp only at done
            rw [chomp, cstr_of_solid text, if_neg (mt List.length_eq_zero_iff.1 empty)] at done
            split at done
            next refused =>
                obtain rfl := Option.some.inj done
                rw [readPairs_refused refused, List.append_nil]
            next accepted =>
                rw [fileLoop_nil] at done
                obtain rfl := Option.some.inj done
                rw [readPairs_cons accepted, readPairs, List.append_nil]
  | line line rest onLine inductionHypothesis =>
      have unbroken : Unbroken line := by
        intro c inside
        constructor
        · rintro rfl
          exact onLine inside
        · rintro rfl
          exact text (List.mem_append_left _ inside)
      obtain ⟨lines, last⟩ := short
      rw [List.terminated_append_cons onLine, List.forall_mem_cons] at lines
      rw [List.unfinished_append_cons onLine] at last
      rw [List.length_append, List.length_cons] at enough
      rw [List.terminated_append_cons onLine, List.unfinished_append_cons onLine, List.cons_append]
      cases rounds with
      | zero => omega
      | succ rounds =>
          rw [fileLoop, fgets_line unbroken lines.1] at done
          dsimp only at done
          rw [if_neg (by simp [cstr_line unbroken]), chomp_line unbroken] at done
          split at done
          next refused =>
              obtain rfl := Option.some.inj done
              rw [readPairs_refused refused, List.append_nil]
          next accepted =>
              have clear : 0 ∉ rest := fun inside =>
                text (List.mem_append_right _ (List.mem_cons_of_mem _ inside))
              rw [inductionHypothesis ⟨lines.2, last⟩ clear (by omega) done,
                readPairs_cons accepted, List.append_assoc]

end File

/-- The key of a line starts here. -/
def keyStart (ln : Bytes) : Bytes := ln.dropWhile fun c => c == chr ' ' || c == 9

theorem exists_pair_iff {ln : Bytes} :
    (∃ pair, processLine ln = .ok (some pair)) ↔
      ¬ (byteAt (keyStart ln) 0 = 0 ∨ byteAt (keyStart ln) 0 = chr '#') ∧
        chr ':' ∈ keyStart ln := by
  rw [processLine, ← keyStart]
  split
  next skipped =>
      refine iff_of_false ?_ fun pair => pair.1 skipped
      rintro ⟨pair, found⟩
      cases found
  next starts =>
      split
      next plain =>
          refine iff_of_false ?_ fun pair => ?_
          · rintro ⟨pair, found⟩
            cases found
          · simp [pair.2] at plain
      next colon =>
          refine iff_of_true ⟨_, rfl⟩ ⟨starts, ?_⟩
          simpa using colon

/-- A pair is left when a line gets one more character. -/
theorem exists_pair_concat {ln : Bytes} (c : Byte)
    (pair : ∃ pair, processLine ln = .ok (some pair)) :
    ∃ pair, processLine (ln ++ [c]) = .ok (some pair) := by
  rw [exists_pair_iff] at pair ⊢
  cases key : keyStart ln with
  | nil => simp [key] at pair
  | cons first rest =>
      have longer : keyStart (ln ++ [c]) = first :: rest ++ [c] := by
        rw [keyStart] at key
        rw [keyStart, List.dropWhile_append, key]
        rfl
      rw [key] at pair
      rw [longer]
      exact ⟨pair.1, List.mem_append_left _ pair.2⟩

/-- A line without a pair has none when it loses its last character. -/
theorem readPairs_dropLast {ln : Bytes} (none_read : readPairs [ln] = []) :
    readPairs [ln.dropLast] = [] := by
  by_contra some_read
  cases answer : processLine ln.dropLast with
  | error => exact some_read (readPairs_refused answer)
  | ok pair =>
      cases pair with
      | none => exact some_read (readPairs_cons answer)
      | some pair =>
          have nonempty : ln ≠ [] := by
            rintro rfl
            exact some_read none_read
          obtain ⟨pair, found⟩ := exists_pair_concat (ln.getLast nonempty) ⟨pair, answer⟩
          rw [List.dropLast_append_getLast] at found
          rw [readPairs_cons found] at none_read
          cases none_read

/-- The three paths add the same pairs of a text with short lines, and stay in their buffers. -/
structure LoadsAlike (inflate : Inflate) (path content : Bytes) : Prop where
  same : 0 ∉ content → Short content → ∀ plain gzip file,
    hashAddInlinePlain content = some plain → hashAddInlineGzip inflate content = some gzip →
      hashAddFile (fun _ => some content) (some path) = some file →
        gzip.added = plain.added ∧ file.added = plain.added
  plainBounded : (hashAddInlinePlain content).isSome
  gzipBounded : (hashAddInlineGzip inflate content).isSome
  fileBounded : (hashAddFile (fun _ => some content) (some path)).isSome

/-- The unfinished line is missed or cut wherever it holds a pair. -/
theorem added_same_iff {inflate : Inflate} {path content : Bytes} {plain gzip fromFile : Loaded}
    (text : 0 ∉ content) (short : Short content)
    (plainDone : hashAddInlinePlain content = some plain)
    (gzipDone : hashAddInlineGzip inflate content = some gzip)
    (fileDone : hashAddFile (fun _ => some content) (some path) = some fromFile) :
    (gzip.added = plain.added ∧ fromFile.added = plain.added) ↔
      ((∀ ln ∈ terminated LF content, Accepted ln) → readPairs [unfinished LF content] = []) := by
  rw [gzipLoop_added (s := []) short List.not_mem_nil gzipDone,
    plainLoop_added List.not_mem_nil plainDone, fileLoop_added short text le_rfl fileDone,
    List.nil_append, List.nil_append, List.nil_append, List.nil_append,
    List.splitOn_eq_terminated]
  by_cases all : ∀ ln ∈ terminated LF content, Accepted ln
  · rw [readPairs_append_accepted all, readPairs_append_accepted all]
    simp only [List.self_eq_append_right, List.append_cancel_left_eq]
    constructor
    · rintro ⟨missed, -⟩ _
      exact missed
    · intro nothing
      rw [nothing all, readPairs_dropLast (nothing all)]
      exact ⟨rfl, rfl⟩
  · rw [readPairs_append_refused all, readPairs_append_refused all]
    exact iff_of_true ⟨rfl, rfl⟩ fun accepted => absurd accepted all

/-- This run of `inflate` fills the buffer each time. -/
def Inflate.eager : Inflate where
  delivered left avail := min avail left.length
  ended left avail := left.length ≤ avail
  fits left avail := Nat.min_le_left _ _
  available left avail := Nat.min_le_right _ _
  complete left avail ended := by simpa using ended
  progress left avail room more := by
    rw [decide_eq_false_iff_not, Nat.not_le] at more
    omega

end Neosurf.Hashtable
