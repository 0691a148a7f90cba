import Mathlib.Order.Interval.Finset.Nat

/-!
# The command line of `sshExec`

`sshExec` gives the shell one line: the `ssh` command, its options and the remote command in single
quotes, with each quote of the command closed, escaped and opened again. Whatever the command is,
the shell reads it as one word.
-/

namespace PgCutover.Environment

open List

/-- Every quote of the command becomes `'\''`. -/
def escaped (command : List Char) : List Char :=
  command.flatMap fun c => if c = '\x27' then "'\\''".toList else [c]

/-- The command in single quotes. -/
def lastArgument (command : List Char) : List Char := '\x27' :: escaped command ++ ['\x27']

/-- The command line up to the last argument. -/
def sshArgs (host keyPath : List Char) (timeoutSecs : ℕ) : List Char :=
  "ssh -i ".toList ++ keyPath ++ " -o StrictHostKeyChecking=no -o BatchMode=yes".toList ++
    " -o ConnectTimeout=".toList ++ Nat.toDigits 10 timeoutSecs ++ " ec2-user@".toList ++ host

/-- The line that the shell gets. -/
def sshCmd (host keyPath command : List Char) (timeoutSecs : ℕ) : List Char :=
  sshArgs host keyPath timeoutSecs ++ ' ' :: lastArgument command

/-- How the shell reads the next character. -/
inductive Quoting where
  | none
  | backslash
  | single
  | double
  | doubleBackslash
  deriving DecidableEq

/-- The words read so far, and the word that is being read. -/
structure Lexer where
  words : List (List Char)
  word : Option (List Char)
  quoting : Quoting
  deriving DecidableEq

namespace Lexer

/-- The lexer before the first character. -/
def start : Lexer := ⟨[], none, .none⟩

/-- The character becomes part of the current word. -/
def append (s : Lexer) (quoting : Quoting) (cs : List Char) : Lexer :=
  ⟨s.words, some (s.word.getD [] ++ cs), quoting⟩

/-- One character of POSIX tokenisation and quote removal; `none` if the shell interprets it. -/
def step (s : Lexer) (c : Char) : Option Lexer :=
  match s.quoting with
  | .none =>
    if c = '\x27' then some (s.append .single [])
    else if c = '\x22' then some (s.append .double [])
    else if c = '\x5c' then some { s with quoting := .backslash }
    else if c = ' ' ∨ c = '\x09' then some ⟨s.words ++ s.word.toList, none, .none⟩
    else if c ∈ "|&;<>()$*?[#~\n".toList ∨ c = '\x60' then none
    else some (s.append .none [c])
  | .backslash => some (if c = '\x0a' then { s with quoting := .none } else s.append .none [c])
  | .single => some (if c = '\x27' then s.append .none [] else s.append .single [c])
  | .double =>
    if c = '\x22' then some (s.append .none [])
    else if c = '$' ∨ c = '\x60' then none
    else if c = '\x5c' then some { s with quoting := .doubleBackslash }
    else some (s.append .double [c])
  | .doubleBackslash =>
    some (if c = '\x0a' then { s with quoting := .double }
      else if c ∈ "$\"\\".toList ∨ c = '\x60' then s.append .double [c]
      else s.append .double ['\x5c', c])

/-- The words of the line, unless a quote is still open at its end. -/
def finish (s : Lexer) : Option (List (List Char)) :=
  if s.quoting = .none then some (s.words ++ s.word.toList) else none

end Lexer

/-- The words that the shell reads from a line. -/
def shellWords (line : List Char) : Option (List (List Char)) :=
  (line.foldlM Lexer.step .start).bind Lexer.finish

/-- Inside the quotes, what has been escaped is read back. -/
theorem foldlM_escaped (words : List (List Char)) (word command : List Char) :
    (escaped command).foldlM Lexer.step ⟨words, some word, .single⟩ =
      some ⟨words, some (word ++ command), .single⟩ := by
  induction command generalizing word with
  | nil => rw [append_nil]; rfl
  | cons c _ ih =>
    rw [escaped, flatMap_cons, foldlM_append, ← escaped]
    have hchar : (if c = '\x27' then "'\\''".toList else [c]).foldlM Lexer.step
        ⟨words, some word, .single⟩ = some ⟨words, some (word ++ [c]), .single⟩ := by
      split_ifs with hc
      all_goals simp [Lexer.step, Lexer.append, hc]
    rw [hchar, Option.bind_eq_bind, Option.bind_some, ih, append_assoc, singleton_append]

theorem foldlM_lastArgument (words : List (List Char)) (command : List Char) :
    (lastArgument command).foldlM Lexer.step ⟨words, none, .none⟩ =
      some ⟨words, some command, .none⟩ := by
  rw [lastArgument, foldlM_append, foldlM_cons]
  have hopen : Lexer.step ⟨words, none, .none⟩ '\x27' = some ⟨words, some [], .single⟩ := rfl
  rw [hopen, Option.bind_eq_bind, Option.bind_some, foldlM_escaped]
  simp [Lexer.step, Lexer.append]

/-- The last argument is one word, the command, alone and after the other arguments. -/
theorem shellWords_sshCmd (host keyPath command : List Char) (timeoutSecs : ℕ)
    (words : List (List Char))
    (hargs : shellWords (sshArgs host keyPath timeoutSecs) = some words) :
    shellWords (lastArgument command) = some [command] ∧
      shellWords (sshCmd host keyPath command timeoutSecs) = some (words ++ [command]) := by
  obtain ⟨s, hs, hfinish⟩ := Option.bind_eq_some_iff.1 hargs
  rw [Lexer.finish] at hfinish
  split_ifs at hfinish with hquoting
  obtain ⟨words', word, quoting⟩ := s
  obtain rfl : quoting = .none := hquoting
  cases hfinish
  have hblank :
      Lexer.step ⟨words', word, .none⟩ ' ' = some ⟨words' ++ word.toList, none, .none⟩ := by
    rfl
  refine ⟨?_, ?_⟩
  · rw [shellWords, Lexer.start, foldlM_lastArgument]
    rfl
  · rw [shellWords, sshCmd, foldlM_append, hs, Option.bind_eq_bind, Option.bind_some, foldlM_cons,
      hblank, Option.bind_eq_bind, Option.bind_some, foldlM_lastArgument]
    rfl

theorem shellWords_sshCmd_quotes :
    shellWords (sshCmd "10.0.0.1".toList "/tmp/key".toList "it's $HOME'".toList 10) =
      some (["ssh", "-i", "/tmp/key", "-o", "StrictHostKeyChecking=no", "-o", "BatchMode=yes", "-o",
        "ConnectTimeout=10", "ec2-user@10.0.0.1"].map String.toList ++ ["it's $HOME'".toList]) :=
  (shellWords_sshCmd _ _ _ _ _ (by decide +kernel)).2

end PgCutover.Environment
