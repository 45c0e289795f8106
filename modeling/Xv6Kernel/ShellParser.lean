import Xv6Kernel.ShellTokens
import Xv6Kernel.TraceExecution

/-!
# The parser of the shell

The recursive descent parser of `sh.c`.  A call that runs out of fuel is `blocked`;
the loops have enough of it for the rest of the line.  The words of a tree are pointers
into the line, and strings only after `nulterminate` has written a NUL behind each of
them.
-/

namespace Xv6Kernel.Shell

open TraceExecution

abbrev maxargs : ℕ := 10

def oRdonly : ℕ := 0x000

def oWronly : ℕ := 0x001

def oCreate : ℕ := 0x200

/-- `struct cmd`, with words of type `W`. -/
inductive Cmd (W : Type)
  | exec (argv : List W)
  | redir (cmd : Cmd W) (file : W) (mode fd : ℕ)
  | pipe (left right : Cmd W)
  | list (left right : Cmd W)
  | back (cmd : Cmd W)
  deriving DecidableEq

/-- `cmd->argv[argc] = q`, where `cmd` is the command that the redirections of `ret`
are about. -/
def Cmd.addArg {W : Type} (w : W) : Cmd W → Cmd W
  | .exec argv => .exec (argv ++ [w])
  | .redir cmd file mode fd => .redir (cmd.addArg w) file mode fd
  | cmd => cmd

def redirected {W : Type} (tok : Char) (cmd : Cmd W) (file : W) : Cmd W :=
  if tok = '<' then .redir cmd file oRdonly 0
  else if tok = '>' then .redir cmd file (oWronly ||| oCreate) 1
  else if tok = '+' then .redir cmd file (oWronly ||| oCreate) 1
  else cmd

def parseredirs : ℕ → Cmd Str → Ptr → Outcome (Cmd Str × Ptr)
  | 0, _, _ => blocked
  | fuel + 1, cmd, ps =>
      let (found, ps) := peek ps ['<', '>']
      if found then do
        let tok := gettoken ps
        let file := gettoken tok.ps
        ensure (file.ret = 'a') "missing file for redirection"
        parseredirs fuel (redirected tok.ret cmd file.str) file.ps
      else return (cmd, ps)

def parseargs : ℕ → ℕ → Cmd Str → Ptr → Outcome (Cmd Str × Ptr)
  | 0, _, _, _ => blocked
  | fuel + 1, argc, ret, ps =>
      let (found, ps) := peek ps ['|', ')', '&', ';']
      if found then return (ret, ps)
      else
        let tok := gettoken ps
        if tok.ret = nul then return (ret, tok.ps)
        else do
          ensure (tok.ret = 'a') "syntax"
          ensure (argc + 1 < maxargs) "too many args"
          let (ret, ps) ← parseredirs (tok.ps.length + 1) (ret.addArg tok.str) tok.ps
          parseargs fuel (argc + 1) ret ps

def parsebacks : ℕ → Cmd Str → Ptr → Outcome (Cmd Str × Ptr)
  | 0, _, _ => blocked
  | fuel + 1, cmd, ps =>
      let (found, ps) := peek ps ['&']
      if found then parsebacks fuel (.back cmd) (gettoken ps).ps
      else return (cmd, ps)

mutual

def parseline : ℕ → Ptr → Outcome (Cmd Str × Ptr)
  | 0, _ => blocked
  | fuel + 1, ps => do
      let (cmd, ps) ← parsepipe fuel ps
      let (cmd, ps) ← parsebacks (ps.length + 1) cmd ps
      let (found, ps) := peek ps [';']
      if found then do
        let (right, ps) ← parseline fuel (gettoken ps).ps
        return (.list cmd right, ps)
      else return (cmd, ps)

def parsepipe : ℕ → Ptr → Outcome (Cmd Str × Ptr)
  | 0, _ => blocked
  | fuel + 1, ps => do
      let (cmd, ps) ← parseexec fuel ps
      let (found, ps) := peek ps ['|']
      if found then do
        let (right, ps) ← parsepipe fuel (gettoken ps).ps
        return (.pipe cmd right, ps)
      else return (cmd, ps)

def parseblock : ℕ → Ptr → Outcome (Cmd Str × Ptr)
  | 0, _ => blocked
  | fuel + 1, ps => do
      let (found, ps) := peek ps ['(']
      ensure (found = true) "parseblock"
      let (cmd, ps) ← parseline fuel (gettoken ps).ps
      let (found, ps) := peek ps [')']
      ensure (found = true) "syntax - missing )"
      let ps := (gettoken ps).ps
      parseredirs (ps.length + 1) cmd ps

def parseexec : ℕ → Ptr → Outcome (Cmd Str × Ptr)
  | 0, _ => blocked
  | fuel + 1, ps =>
      let (found, ps) := peek ps ['(']
      if found then parseblock fuel ps
      else do
        let (ret, ps) ← parseredirs (ps.length + 1) (.exec []) ps
        parseargs (ps.length + 1) 0 ret ps

end

def index (line : List Char) (p : Ptr) : ℕ := line.length - p.length

def terminate (line : List Char) (buf : List Char) (w : Str) : List Char :=
  buf.set (index line w.eq) nul

def nulterminate (line : List Char) : Cmd Str → List Char → List Char
  | .exec argv, buf => argv.foldl (terminate line) buf
  | .redir cmd file _ _, buf => terminate line (nulterminate line cmd buf) file
  | .pipe left right, buf => nulterminate line right (nulterminate line left buf)
  | .list left right, buf => nulterminate line right (nulterminate line left buf)
  | .back cmd, buf => nulterminate line cmd buf

def depth (line : List Char) : ℕ := 4 * line.length + 4

/-- `parsecmd` on a line with the NUL behind it: the tree, and the line in memory. -/
def parsecmd (s : List Char) : Outcome (Cmd Str × List Char) := do
  let line := s.takeWhile (· ≠ nul)
  let (cmd, ps) ← parseline (depth line) line
  let (_, ps) := peek ps []
  ensure (ps = []) "syntax"
  return (cmd, nulterminate line cmd (line ++ [nul]))

end Xv6Kernel.Shell
