import SlateFs.Alloc.Lease
import SlateFs.Block.Life
import SlateFs.Control.Pages
import SlateFs.Fsck.Scan
import SlateFs.Http.Listing
import SlateFs.Locks.Order
import SlateFs.Locks.Range
import SlateFs.P9.Xattr
import SlateFs.Seq.Records
import SlateFs.Seq.SetId
import SlateFs.Seq.Stable
import SlateFs.Snapshot.Agree
import SlateFs.Version.Keys
import SlateFs.Version.Names
import SlateFs.Version.Reflog
import SlateFs.Version.Repeat
import SlateFs.Version.Restored
import SlateFs.Lib.Numbered
import SlateFs.Seq.Index
