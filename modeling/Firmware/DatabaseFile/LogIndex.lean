import Firmware.Bytes

/-!
# Indexes of logs

A database whose changes go to a log first has two more files while it is in use: the log, and an
index of it that processes share. A process that may only read leaves both behind. As nothing has
been written by then the log is empty, and its index is always the same.
-/

namespace Firmware
namespace DatabaseFile
namespace LogIndex

def size : Nat := 32768

def version : UInt32 := 3007000

/-- The words of the head of an empty log's index: its version, two counters, a mark that it is
ready, and nothing else. -/
def headWords : List UInt32 := [version, 0, 0, 1, 0, 0, 0, 0, 0, 0]

/-- Two running sums over pairs of words. -/
def checksum : List UInt32 → UInt32 × UInt32 → UInt32 × UInt32
  | x :: y :: rest, (a, b) =>
    let a := a + x + b
    checksum rest (a, b + y + a)
  | _, sums => sums

def head : Bytes :=
  let (a, b) := checksum headWords (0, 0)
  (headWords ++ [a, b]).flatMap Bytes.ofWord32

/-- The marks up to which readers use the log, of which only the first one is in use. -/
def readMarks : Bytes := [0, 0xFFFFFFFF, 0xFFFFFFFF, 0xFFFFFFFF, 0xFFFFFFFF].flatMap Bytes.ofWord32

/-- The index of an empty log: the head twice, how much of the log has been taken over, and the
marks. -/
def empty : Bytes :=
  Bytes.resize (head ++ head ++ Bytes.ofWord32 0 ++ readMarks) size 0

end LogIndex
end DatabaseFile
end Firmware
