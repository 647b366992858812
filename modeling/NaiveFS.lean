import NaiveFS.AllocSound
import NaiveFS.AppendSound
import NaiveFS.Bitmap
import NaiveFS.BitmapSound
import NaiveFS.BlockCache
import NaiveFS.BlockGroups
import NaiveFS.CacheSound
import NaiveFS.CounterSound
import NaiveFS.CreateSound
import NaiveFS.CycleSound
import NaiveFS.DeleteBlocks
import NaiveFS.DeleteSound
import NaiveFS.DentryBytes
import NaiveFS.DentryRing
import NaiveFS.Directory
import NaiveFS.DirectoryBytes
import NaiveFS.DirectorySound
import NaiveFS.DiskSound
import NaiveFS.EntrySound
import NaiveFS.FSList
import NaiveFS.FileSound
import NaiveFS.FileView
import NaiveFS.FreshSound
import NaiveFS.FullDisk
import NaiveFS.GroupLedger
import NaiveFS.GroupStore
import NaiveFS.GroupsSound
import NaiveFS.HandleSound
import NaiveFS.InodeInit
import NaiveFS.IntegritySound
import NaiveFS.LayoutSound
import NaiveFS.Lib.Circle
import NaiveFS.Lib.EarlyExit
import NaiveFS.Lib.Lru
import NaiveFS.Lib.Replies
import NaiveFS.Lib.Runs
import NaiveFS.Lib.RwLocks
import NaiveFS.Lib.Sentinels
import NaiveFS.LockScripts
import NaiveFS.LockSound
import NaiveFS.LongDirectory
import NaiveFS.LookupSound
import NaiveFS.LruNodes
import NaiveFS.LruPages
import NaiveFS.LruRuns
import NaiveFS.LruSound
import NaiveFS.MountSound
import NaiveFS.OpenSound
import NaiveFS.Operation
import NaiveFS.OutlineSound
import NaiveFS.OwnerSound
import NaiveFS.PagedWalk
import NaiveFS.PathMap
import NaiveFS.PathMapSound
import NaiveFS.PathSound
import NaiveFS.PathSyntax
import NaiveFS.PermissionSound
import NaiveFS.ReadSound
import NaiveFS.RemountSound
import NaiveFS.RenameAtomic
import NaiveFS.RenameLong
import NaiveFS.RenameSound
import NaiveFS.Residency
import NaiveFS.RingSound
import NaiveFS.Sections
import NaiveFS.SeekSound
import NaiveFS.SessionSound
import NaiveFS.SizeLimit
import NaiveFS.SpareBlocks
import NaiveFS.SparseWrite
import NaiveFS.SymlinkSound
import NaiveFS.SyncFS
import NaiveFS.SyncSound
import NaiveFS.TreeAgree
import NaiveFS.TreeFS
import NaiveFS.UnlinkSound
import NaiveFS.VisitSound
import NaiveFS.WriteBackSound
import NaiveFS.WriteSound
